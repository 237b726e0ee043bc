import PathLedger.Expr.Evaluate

/-!
# The grammar of expressions

Expressions as trees, the rows of tokens that spell them, and what a tree is worth.

* `Expr.Tree` — an expression with its structure laid open.
* `Expr.Derives` — the grammar, one level for each strength of binding: the binary operators associate to
  the left, the unary ones stand in front of their operand and bind tightest, parentheses make an atom.
* `Expr.Tree.steps` — the postfix form of a tree; `steps_injective`: a tree can be read off it.
* `Expr.Tree.value` — strict evaluation: every operand is evaluated, and a failure anywhere is the failure
  of the whole.
* `Expr.heightAfter` — how high a row of steps leaves the stack of values, when it never reaches below it.
-/

namespace PathLedger.Expr

/-- An expression with its structure laid open. -/
inductive Tree where
  | constant (v : Value)
  | reference (label : String)
  | unary (o : Unary) (operand : Tree)
  | binary (o : Binary) (left right : Tree)
deriving Repr, Inhabited

/-- The level of what stands without an operator of its own. -/
def atomLevel : Nat := 8

/-- The level of whole expressions. -/
def loosestLevel : Nat := 1

/-- `Derives n ts t`: the tokens `ts` spell the tree `t` with operators that bind at level `n` or tighter
outside of parentheses. -/
inductive Derives : Nat → List Token → Tree → Prop where
  | constant (v : Value) : Derives atomLevel [.literal v] (.constant v)
  | reference (label : String) : Derives atomLevel [.identifier label] (.reference label)
  | group {ts : List Token} {t : Tree} (h : Derives loosestLevel ts t) :
    Derives atomLevel (.opening :: (ts ++ [.closing])) t
  | neg {ts : List Token} {t : Tree} (h : Derives unaryLevel ts t) :
    Derives unaryLevel (.operator .sub :: ts) (.unary .neg t)
  | not {ts : List Token} {t : Tree} (h : Derives unaryLevel ts t) :
    Derives unaryLevel (.not :: ts) (.unary .not t)
  | binary {o : Binary} {ts us : List Token} {t u : Tree} (left : Derives o.level ts t)
    (right : Derives (o.level + 1) us u) : Derives o.level (ts ++ .operator o :: us) (.binary o t u)
  | looser {n : Nat} {ts : List Token} {t : Tree} (h : Derives (n + 1) ts t) : Derives n ts t

theorem Derives.mono {n m : Nat} {ts : List Token} {t : Tree} (h : Derives n ts t) (hm : m ≤ n) :
    Derives m ts t := by
  induction n with
  | zero =>
    obtain rfl : m = 0 := by omega
    exact h
  | succ n ih =>
    rcases Nat.lt_or_ge n m with hlt | hge
    · obtain rfl : m = n + 1 := by omega
      exact h
    · exact ih h.looser hge

theorem Binary.one_le_level (o : Binary) : 1 ≤ o.level := by cases o <;> decide

theorem Binary.level_lt_unary (o : Binary) : o.level < unaryLevel := by cases o <;> decide

/-! ## The postfix form of a tree -/

/-- The steps that leave the value of a tree on the stack: operands first, from left to right. -/
def Tree.steps : Tree → List Step
  | .constant v => [.push v]
  | .reference label => [.load label]
  | .unary o t => t.steps ++ [.unary o]
  | .binary o t u => t.steps ++ (u.steps ++ [.binary o])

/-- The trees that a row of steps puts together on a stack of trees. -/
def assemble (stack : List Tree) : List Step → Option (List Tree)
  | [] => some stack
  | .push v :: rest => assemble (.constant v :: stack) rest
  | .load label :: rest => assemble (.reference label :: stack) rest
  | .unary o :: rest =>
    match stack with
    | t :: below => assemble (.unary o t :: below) rest
    | [] => none
  | .binary o :: rest =>
    match stack with
    | u :: t :: below => assemble (.binary o t u :: below) rest
    | _ => none

theorem assemble_steps (t : Tree) (stack : List Tree) (rest : List Step) :
    assemble stack (t.steps ++ rest) = assemble (t :: stack) rest := by
  induction t generalizing stack rest with
  | constant v => rfl
  | reference label => rfl
  | unary o t ih =>
    rw [Tree.steps, List.append_assoc, ih]
    rfl
  | binary o t u iht ihu =>
    rw [Tree.steps, List.append_assoc, iht, List.append_assoc, ihu]
    rfl

/-- Different trees have different postfix forms. -/
theorem Tree.steps_injective {t u : Tree} (h : t.steps = u.steps) : t = u := by
  have ht := assemble_steps t [] []
  have hu := assemble_steps u [] []
  rw [List.append_nil] at ht hu
  rw [h, hu] at ht
  simp only [assemble, Option.some.injEq, List.cons.injEq, and_true] at ht
  exact ht.symm

/-- The height of a stack of values after some steps from a height; none when a step finds too few
values. -/
def heightAfter : Nat → List Step → Option Nat
  | height, [] => some height
  | height, .push _ :: rest => heightAfter (height + 1) rest
  | height, .load _ :: rest => heightAfter (height + 1) rest
  | height + 1, .unary _ :: rest => heightAfter (height + 1) rest
  | height + 2, .binary _ :: rest => heightAfter (height + 1) rest
  | _, _ => none

theorem heightAfter_steps (t : Tree) (height : Nat) (rest : List Step) :
    heightAfter height (t.steps ++ rest) = heightAfter (height + 1) rest := by
  induction t generalizing height rest with
  | constant v => simp [Tree.steps, heightAfter]
  | reference label => simp [Tree.steps, heightAfter]
  | unary o t ih =>
    rw [Tree.steps, List.append_assoc, ih]
    simp [heightAfter]
  | binary o t u iht ihu =>
    rw [Tree.steps, List.append_assoc, iht, List.append_assoc, ihu]
    simp [heightAfter]

theorem heightAfter_cons (height : Nat) (s : Step) (rest : List Step) :
    heightAfter height (s :: rest) = (heightAfter height [s]).bind fun h => heightAfter h rest := by
  cases s with
  | push v => rfl
  | load label => rfl
  | unary o => cases height <;> rfl
  | binary o =>
    match height with
    | 0 => rfl
    | 1 => rfl
    | _ + 2 => rfl

/-- The heights are those of the real stack, wherever a run gets to. -/
theorem heightAfter_runSteps (r : Resolver Id) (scope : Path) (steps : List Step) {stack after : List Value}
    (h : (runSteps r scope stack steps).run = some after) :
    heightAfter stack.length steps = some after.length := by
  induction steps generalizing stack with
  | nil =>
    obtain rfl : stack = after := Option.some.inj h
    rfl
  | cons s rest ih =>
    have hsplit : runSteps r scope stack (s :: rest) =
        runStep r scope stack s >>= fun st => runSteps r scope st rest := rfl
    rw [hsplit, OptionT.run_bind] at h
    cases hstep : (runStep r scope stack s).run with
    | none => rw [hstep] at h; cases h
    | some middle =>
      rw [hstep] at h
      have hone : heightAfter stack.length [s] = some middle.length := by
        cases s with
        | push v => cases hstep; rfl
        | load label =>
          rw [runStep, OptionT.run_bind, OptionT.run_mk] at hstep
          cases hv : resolveIdentifier r scope label with
          | none => rw [hv] at hstep; cases hstep
          | some v => rw [hv] at hstep; cases hstep; rfl
        | unary o =>
          cases stack with
          | nil => cases hstep
          | cons a st =>
            obtain ⟨v, hv, rfl⟩ := Option.map_eq_some_iff.mp hstep
            rfl
        | binary o =>
          match stack, hstep with
          | b :: a :: st, hstep =>
            obtain ⟨v, hv, rfl⟩ := Option.map_eq_some_iff.mp hstep
            rfl
      rw [heightAfter_cons, hone]
      exact ih h

/-! ## The value of a tree -/

variable {m : Type → Type} [Monad m]

/-- The value of a tree at a scope. -/
def Tree.value (r : Resolver m) (scope : Path) : Tree → OptionT m Value
  | .constant v => pure v
  | .reference label => OptionT.mk (resolveIdentifier r scope label)
  | .unary o t => do
    let a ← t.value r scope
    OptionT.mk (pure (applyUnary o a))
  | .binary o t u => do
    let a ← t.value r scope
    let b ← u.value r scope
    OptionT.mk (pure (applyBinary o a b))

theorem mk_pure_map [LawfulMonad m] {α β : Type} (x : Option α) (f : α → β) :
    (OptionT.mk (pure (x.map f)) : OptionT m β) = OptionT.mk (pure x) >>= fun a => pure (f a) := by
  apply OptionT.ext
  cases x <;> simp [OptionT.run_mk]

/-- The postfix form of a tree puts its value on top of any stack, or fails when the tree has none. -/
theorem runSteps_steps [LawfulMonad m] (r : Resolver m) (scope : Path) (t : Tree) (stack : List Value) :
    runSteps r scope stack t.steps = t.value r scope >>= fun v => pure (v :: stack) := by
  induction t generalizing stack with
  | constant v => simp [runSteps, Tree.steps, Tree.value, runStep]
  | reference label => simp [runSteps, Tree.steps, Tree.value, runStep]
  | unary o t ih =>
    have hstep (v : Value) : runSteps r scope (v :: stack) [.unary o] =
        OptionT.mk (pure (applyUnary o v)) >>= fun w => pure (w :: stack) := by
      simp [runSteps, runStep, mk_pure_map]
    have hsplit : runSteps r scope stack (t.steps ++ [.unary o]) =
        runSteps r scope stack t.steps >>= fun st => runSteps r scope st [.unary o] :=
      List.foldlM_append
    simp only [Tree.steps, Tree.value, hsplit, ih, bind_assoc, pure_bind, hstep]
  | binary o t u iht ihu =>
    have hstep (v w : Value) : runSteps r scope (w :: v :: stack) [.binary o] =
        OptionT.mk (pure (applyBinary o v w)) >>= fun x => pure (x :: stack) := by
      simp [runSteps, runStep, mk_pure_map]
    have hleft : runSteps r scope stack (t.steps ++ (u.steps ++ [.binary o])) =
        runSteps r scope stack t.steps >>= fun st => runSteps r scope st (u.steps ++ [.binary o]) :=
      List.foldlM_append
    have hright (st : List Value) : runSteps r scope st (u.steps ++ [.binary o]) =
        runSteps r scope st u.steps >>= fun st => runSteps r scope st [.binary o] :=
      List.foldlM_append
    simp only [Tree.steps, Tree.value, hleft, hright, iht, ihu, bind_assoc, pure_bind, hstep]

end PathLedger.Expr
