import PathLedger.Proofs.Expr.Grammar

/-!
# The operator stack reads the grammar

`Expr.toPostfix` never builds a tree. What waits on its stack is the part of a derivation that is still
open, and this module makes the two agree.

* `Expr.Loose` — a stack whose top leaves an operand of some level alone.
* `Expr.convert_derives` — **a row that the grammar derives is converted**, whatever waits below it.
* `Expr.Reading` — the tokens behind a stack: operators with a derived left operand, unary operators and
  open parentheses.
* `Expr.convert_reading` — **a row that is converted has a derivation**.
* `Expr.evaluate_correct` — **an expression is worth what its tree is worth**.
-/

namespace PathLedger.Expr

open Text

/-- What a waiting operator runs as. -/
def Waiting.step? : Waiting → Option Step
  | .unary o => some (.unary o)
  | .binary o => some (.binary o)
  | .opening => none

/-- The steps that waiting operators run as, the top first. -/
def flush (stack : List Waiting) : List Step := stack.filterMap Waiting.step?

/-- Whether an operator binds at a level or tighter. -/
def Waiting.BindsAt (n : Nat) : Waiting → Prop
  | .unary _ => n ≤ unaryLevel
  | .binary o => n ≤ o.level
  | .opening => False

/-- Whether the top of a stack does not bind as tightly as an operand of level `n` that follows it. -/
def Loose (n : Nat) : List Waiting → Prop
  | .unary _ :: _ => unaryLevel ≤ n
  | .binary o :: _ => o.level < n
  | _ => loosestLevel ≤ n

theorem Waiting.BindsAt.mono {n k : Nat} {w : Waiting} (h : w.BindsAt n) (hk : k ≤ n) : w.BindsAt k := by
  cases w with
  | unary o => exact Nat.le_trans hk h
  | binary o => exact Nat.le_trans hk h
  | opening => exact h

theorem Loose.mono {n k : Nat} {stack : List Waiting} (h : Loose n stack) (hk : n ≤ k) : Loose k stack := by
  unfold Loose at h ⊢
  split <;> simp only at h <;> omega

/-- Nothing on a stack binds more tightly than a unary operator. -/
theorem loose_unaryLevel (stack : List Waiting) : Loose unaryLevel stack := by
  unfold Loose
  split
  · exact Nat.le_refl _
  · rename_i o _
    exact o.level_lt_unary
  · decide

theorem loose_atomLevel (stack : List Waiting) : Loose atomLevel stack :=
  (loose_unaryLevel stack).mono (by decide)

/-! ## Running the stack -/

section Flush

variable {run : List Waiting} {n : Nat}

theorem runTighter_append {o : Binary} (hrun : ∀ w ∈ run, w.BindsAt o.level) {stack : List Waiting}
    (hstack : Loose o.level stack) : runTighter o.level (run ++ stack) = (flush run, stack) := by
  have hunary : o.level ≤ unaryLevel := Nat.le_of_lt o.level_lt_unary
  induction run with
  | nil =>
    cases stack with
    | nil => rfl
    | cons w rest =>
      cases w with
      | unary u =>
        have htop : unaryLevel ≤ o.level := hstack
        have := o.level_lt_unary
        omega
      | binary p =>
        have htop : p.level < o.level := hstack
        show runTighter o.level (.binary p :: rest) = _
        rw [runTighter, if_neg (by omega)]
        rfl
      | opening => rfl
  | cons w rest ih =>
    have ih := ih fun w hw => hrun w (List.mem_cons_of_mem _ hw)
    have hw := hrun w List.mem_cons_self
    cases w with
    | unary u =>
      rw [List.cons_append, runTighter, if_pos hunary, ih]
      rfl
    | binary p =>
      have hp : o.level ≤ p.level := hw
      rw [List.cons_append, runTighter, if_pos hp, ih]
      rfl
    | opening => exact hw.elim

theorem runToOpening_append (hrun : ∀ w ∈ run, w.BindsAt n) (stack : List Waiting) :
    runToOpening (run ++ .opening :: stack) = some (flush run, stack) := by
  induction run with
  | nil => rfl
  | cons w rest ih =>
    have ih := ih fun w hw => hrun w (List.mem_cons_of_mem _ hw)
    have hw := hrun w List.mem_cons_self
    cases w with
    | unary u =>
      rw [List.cons_append, runToOpening, ih]
      rfl
    | binary p =>
      rw [List.cons_append, runToOpening, ih]
      rfl
    | opening => exact hw.elim

theorem runAll_flush (hrun : ∀ w ∈ run, w.BindsAt n) : runAll run = some (flush run) := by
  induction run with
  | nil => rfl
  | cons w rest ih =>
    have ih := ih fun w hw => hrun w (List.mem_cons_of_mem _ hw)
    have hw := hrun w List.mem_cons_self
    cases w with
    | unary u =>
      rw [runAll, ih]
      rfl
    | binary p =>
      rw [runAll, ih]
      rfl
    | opening => exact hw.elim

end Flush

/-! ## What the grammar derives is converted -/

/-- **The tokens of an operand** come out as some steps and leave some operators waiting; together they are
the postfix form of its tree. -/
theorem convert_derives {n : Nat} {ts : List Token} {t : Tree} (h : Derives n ts t) :
    ∃ out wait, (∀ w ∈ wait, Waiting.BindsAt n w) ∧ out ++ flush wait = t.steps ∧
      ∀ stack rest, Loose n stack →
        convert false stack (ts ++ rest) = (convert true (wait ++ stack) rest).map (out ++ ·) := by
  induction h with
  | constant v =>
    refine ⟨[.push v], [], by simp, rfl, fun stack rest _ => ?_⟩
    rfl
  | reference label =>
    refine ⟨[.load label], [], by simp, rfl, fun stack rest _ => ?_⟩
    rfl
  | @group ts t _ ih =>
    obtain ⟨out, wait, hwait, hsteps, hconvert⟩ := ih
    refine ⟨out ++ flush wait, [], by simp, by simpa [flush] using hsteps, fun stack rest _ => ?_⟩
    have hclosing : convert true (wait ++ .opening :: stack) (.closing :: rest) =
        (convert true stack rest).map (flush wait ++ ·) := by
      simp [convert, runToOpening_append hwait stack]
    have hopen := hconvert (.opening :: stack) (.closing :: rest) (Nat.le_refl _)
    simp only [List.cons_append, List.append_assoc, List.nil_append, convert, Bool.false_eq_true, if_false]
    rw [hopen, hclosing]
    simp [Option.map_map, Function.comp_def]
  | @neg ts t _ ih =>
    obtain ⟨out, wait, hwait, hsteps, hconvert⟩ := ih
    refine ⟨out, wait ++ [.unary .neg], ?_, ?_, fun stack rest _ => ?_⟩
    · intro w hw
      rcases List.mem_append.mp hw with hw | hw
      · exact hwait w hw
      · obtain rfl := List.mem_singleton.mp hw
        exact Nat.le_refl _
    · rw [Tree.steps, ← hsteps]
      simp [flush, Waiting.step?]
    · simpa [convert] using hconvert (.unary .neg :: stack) rest (Nat.le_refl _)
  | @not ts t _ ih =>
    obtain ⟨out, wait, hwait, hsteps, hconvert⟩ := ih
    refine ⟨out, wait ++ [.unary .not], ?_, ?_, fun stack rest _ => ?_⟩
    · intro w hw
      rcases List.mem_append.mp hw with hw | hw
      · exact hwait w hw
      · obtain rfl := List.mem_singleton.mp hw
        exact Nat.le_refl _
    · rw [Tree.steps, ← hsteps]
      simp [flush, Waiting.step?]
    · simpa [convert] using hconvert (.unary .not :: stack) rest (Nat.le_refl _)
  | @binary o ts us t u _ _ iht ihu =>
    obtain ⟨out, wait, hwait, hsteps, hconvert⟩ := iht
    obtain ⟨out', wait', hwait', hsteps', hconvert'⟩ := ihu
    refine ⟨out ++ flush wait ++ out', wait' ++ [.binary o], ?_, ?_, fun stack rest hstack => ?_⟩
    · intro w hw
      rcases List.mem_append.mp hw with hw | hw
      · exact (hwait' w hw).mono (Nat.le_succ _)
      · obtain rfl := List.mem_singleton.mp hw
        exact Nat.le_refl _
    · rw [Tree.steps, ← hsteps, ← hsteps']
      simp [flush, Waiting.step?]
    · have hoperator : convert true (wait ++ stack) (.operator o :: (us ++ rest)) =
          (convert false (.binary o :: stack) (us ++ rest)).map (flush wait ++ ·) := by
        simp [convert, runTighter_append hwait hstack]
      have hright := hconvert' (.binary o :: stack) rest (Nat.lt_succ_self _)
      rw [List.append_assoc, List.cons_append, hconvert stack _ hstack, hoperator, hright]
      simp [Option.map_map, Function.comp_def]
  | @looser n ts t _ ih =>
    obtain ⟨out, wait, hwait, hsteps, hconvert⟩ := ih
    exact ⟨out, wait, fun w hw => (hwait w hw).mono (Nat.le_succ _), hsteps,
      fun stack rest hstack => hconvert stack rest (hstack.mono (Nat.le_succ _))⟩

theorem toPostfix_derives {ts : List Token} {t : Tree} (h : Derives loosestLevel ts t) :
    toPostfix ts = some t.steps := by
  obtain ⟨out, wait, hwait, hsteps, hconvert⟩ := convert_derives h
  have := hconvert [] [] (Nat.le_refl _)
  rw [List.append_nil, List.append_nil] at this
  rw [toPostfix, this, convert, if_pos rfl, runAll_flush hwait, Option.map_some, hsteps]

/-- The grammar is unambiguous: the operator stack finds the one tree there is. -/
theorem Derives.unique {ts : List Token} {t u : Tree} (ht : Derives loosestLevel ts t)
    (hu : Derives loosestLevel ts u) : t = u := by
  have := toPostfix_derives hu
  rw [toPostfix_derives ht, Option.some.injEq] at this
  exact Tree.steps_injective this

/-! ## What is converted, the grammar derives -/

/-- The tokens that have been read when a stack waits for an operand. -/
inductive Reading : List Waiting → List Token → Prop where
  | start : Reading [] []
  | opening {st : List Waiting} {ts : List Token} (below : Reading st ts) :
    Reading (.opening :: st) (ts ++ [.opening])
  | neg {st : List Waiting} {ts : List Token} (below : Reading st ts) :
    Reading (.unary .neg :: st) (ts ++ [.operator .sub])
  | not {st : List Waiting} {ts : List Token} (below : Reading st ts) :
    Reading (.unary .not :: st) (ts ++ [.not])
  | binary {o : Binary} {st : List Waiting} {ts us : List Token} {t : Tree} (below : Reading st ts)
    (left : Derives o.level us t) (loose : Loose o.level st) :
    Reading (.binary o :: st) (ts ++ us ++ [.operator o])

section Collapse

variable {st stay : List Waiting} {run : List Step} {ts us : List Token} {t : Tree} {n : Nat}

/-- A binary operator takes the operand in front of it from the operators that it makes run. -/
theorem Reading.runTighter {o : Binary} (h : Reading st ts) (ht : Derives n us t) (hloose : Loose n st)
    (ho : o.level ≤ n) (hrun : runTighter o.level st = (run, stay)) :
    ∃ ts' us' t', ts ++ us = ts' ++ us' ∧ Reading stay ts' ∧ Derives o.level us' t' ∧
      Loose o.level stay := by
  have hunary : o.level ≤ unaryLevel := Nat.le_of_lt o.level_lt_unary
  induction h generalizing n us t run with
  | start =>
    obtain ⟨-, rfl⟩ : [] = run ∧ [] = stay := by simpa [Expr.runTighter] using hrun
    exact ⟨[], us, t, rfl, .start, ht.mono ho, o.one_le_level⟩
  | @opening st ts below _ =>
    obtain ⟨-, rfl⟩ : [] = run ∧ .opening :: st = stay := by simpa [Expr.runTighter] using hrun
    exact ⟨ts ++ [.opening], us, t, rfl, below.opening, ht.mono ho, o.one_le_level⟩
  | @neg st ts below ih =>
    rw [Expr.runTighter, if_pos hunary] at hrun
    obtain ⟨-, hstay⟩ := Prod.mk.inj hrun
    have hneg : Derives unaryLevel (.operator .sub :: us) (.unary .neg t) := .neg (ht.mono hloose)
    obtain ⟨ts', us', t', heq, hrest⟩ := ih hneg (loose_unaryLevel st) hunary (Prod.ext rfl hstay)
    exact ⟨ts', us', t', by rw [← heq]; simp, hrest⟩
  | @not st ts below ih =>
    rw [Expr.runTighter, if_pos hunary] at hrun
    obtain ⟨-, hstay⟩ := Prod.mk.inj hrun
    have hnot : Derives unaryLevel (.not :: us) (.unary .not t) := .not (ht.mono hloose)
    obtain ⟨ts', us', t', heq, hrest⟩ := ih hnot (loose_unaryLevel st) hunary (Prod.ext rfl hstay)
    exact ⟨ts', us', t', by rw [← heq]; simp, hrest⟩
  | @binary p st ts vs left below hleft hp ih =>
    rw [Expr.runTighter] at hrun
    split at hrun
    · rename_i hlevel
      obtain ⟨-, hstay⟩ := Prod.mk.inj hrun
      have hboth : Derives p.level (vs ++ .operator p :: us) (.binary p left t) :=
        .binary hleft (ht.mono hloose)
      obtain ⟨ts', us', t', heq, hrest⟩ := ih hboth hp hlevel (Prod.ext rfl hstay)
      exact ⟨ts', us', t', by rw [← heq]; simp, hrest⟩
    · rename_i hlevel
      obtain ⟨-, rfl⟩ := Prod.mk.inj hrun
      exact ⟨_, us, t, rfl, .binary below hleft hp, ht.mono ho, Nat.lt_of_not_le hlevel⟩

/-- A closing parenthesis ends the expression that began behind the innermost open one. -/
theorem Reading.runToOpening (h : Reading st ts) (ht : Derives n us t) (hloose : Loose n st)
    (hrun : runToOpening st = some (run, stay)) :
    ∃ ts' us' t', ts ++ us = ts' ++ .opening :: us' ∧ Reading stay ts' ∧ Derives loosestLevel us' t' := by
  induction h generalizing n us t run with
  | start => simp [Expr.runToOpening] at hrun
  | @opening st ts below _ =>
    obtain ⟨-, rfl⟩ : [] = run ∧ st = stay := by simpa [Expr.runToOpening] using hrun
    exact ⟨ts, us, t, by simp, below, ht.mono hloose⟩
  | @neg st ts below ih =>
    obtain ⟨p, hp, heq⟩ := Option.map_eq_some_iff.mp hrun
    obtain ⟨-, rfl⟩ := Prod.mk.inj heq
    have hneg : Derives unaryLevel (.operator .sub :: us) (.unary .neg t) := .neg (ht.mono hloose)
    obtain ⟨ts', us', t', heq, hrest⟩ := ih hneg (loose_unaryLevel st) hp
    exact ⟨ts', us', t', by rw [← heq]; simp, hrest⟩
  | @not st ts below ih =>
    obtain ⟨p, hp, heq⟩ := Option.map_eq_some_iff.mp hrun
    obtain ⟨-, rfl⟩ := Prod.mk.inj heq
    have hnot : Derives unaryLevel (.not :: us) (.unary .not t) := .not (ht.mono hloose)
    obtain ⟨ts', us', t', heq, hrest⟩ := ih hnot (loose_unaryLevel st) hp
    exact ⟨ts', us', t', by rw [← heq]; simp, hrest⟩
  | @binary o st ts vs left below hleft ho ih =>
    obtain ⟨p, hp, heq⟩ := Option.map_eq_some_iff.mp hrun
    obtain ⟨-, rfl⟩ := Prod.mk.inj heq
    have hboth : Derives o.level (vs ++ .operator o :: us) (.binary o left t) :=
      .binary hleft (ht.mono hloose)
    obtain ⟨ts', us', t', heq, hrest⟩ := ih hboth ho hp
    exact ⟨ts', us', t', by rw [← heq]; simp, hrest⟩

/-- The end of the row closes every operator that still waits. -/
theorem Reading.runAll (h : Reading st ts) (ht : Derives n us t) (hloose : Loose n st)
    (hrun : runAll st = some run) : ∃ t', Derives loosestLevel (ts ++ us) t' := by
  induction h generalizing n us t run with
  | start => exact ⟨t, ht.mono hloose⟩
  | opening => simp [Expr.runAll] at hrun
  | @neg st ts below ih =>
    obtain ⟨p, hp, -⟩ := Option.map_eq_some_iff.mp hrun
    have hneg : Derives unaryLevel (.operator .sub :: us) (.unary .neg t) := .neg (ht.mono hloose)
    obtain ⟨t', ht'⟩ := ih hneg (loose_unaryLevel st) hp
    exact ⟨t', by simpa using ht'⟩
  | @not st ts below ih =>
    obtain ⟨p, hp, -⟩ := Option.map_eq_some_iff.mp hrun
    have hnot : Derives unaryLevel (.not :: us) (.unary .not t) := .not (ht.mono hloose)
    obtain ⟨t', ht'⟩ := ih hnot (loose_unaryLevel st) hp
    exact ⟨t', by simpa using ht'⟩
  | @binary o st ts vs left below hleft ho ih =>
    obtain ⟨p, hp, -⟩ := Option.map_eq_some_iff.mp hrun
    have hboth : Derives o.level (vs ++ .operator o :: us) (.binary o left t) :=
      .binary hleft (ht.mono hloose)
    obtain ⟨t', ht'⟩ := ih hboth ho hp
    exact ⟨t', by simpa using ht'⟩

end Collapse

/-- **A row that is converted has a derivation**: in front of an operand, and behind one that is derived. -/
theorem convert_reading (rest : List Token) {st : List Waiting} {ts : List Token} (h : Reading st ts) :
    ((convert false st rest).isSome → ∃ t, Derives loosestLevel (ts ++ rest) t) ∧
    ∀ {us : List Token} {t : Tree}, Derives atomLevel us t → (convert true st rest).isSome →
      ∃ t', Derives loosestLevel (ts ++ us ++ rest) t' := by
  induction rest generalizing st ts with
  | nil =>
    refine ⟨fun hsome => by simp [convert] at hsome, fun ht hsome => ?_⟩
    obtain ⟨run, hrun⟩ := Option.isSome_iff_exists.mp hsome
    rw [List.append_nil]
    exact h.runAll ht (loose_atomLevel st) hrun
  | cons c rest ih =>
    -- In front of an operand the next token starts one; behind one it ends or goes on with one.
    constructor
    · intro hsome
      cases c with
      | literal v =>
        have hnext : (convert true st rest).isSome := by simpa [convert] using hsome
        simpa using (ih h).2 (.constant v) hnext
      | identifier label =>
        have hnext : (convert true st rest).isSome := by simpa [convert] using hsome
        simpa using (ih h).2 (.reference label) hnext
      | operator o =>
        obtain ⟨rfl, hnext⟩ : o = .sub ∧ (convert false (.unary .neg :: st) rest).isSome := by
          by_cases ho : o = .sub
          · exact ⟨ho, by simpa [convert, ho] using hsome⟩
          · simp [convert, ho] at hsome
        simpa using (ih h.neg).1 hnext
      | not =>
        have hnext : (convert false (.unary .not :: st) rest).isSome := by simpa [convert] using hsome
        simpa using (ih h.not).1 hnext
      | opening =>
        have hnext : (convert false (.opening :: st) rest).isSome := by simpa [convert] using hsome
        simpa using (ih h.opening).1 hnext
      | closing => simp [convert] at hsome
    · intro us t ht hsome
      cases c with
      | literal v => simp [convert] at hsome
      | identifier label => simp [convert] at hsome
      | operator o =>
        cases hrun : runTighter o.level st with
        | mk run stay =>
          have hnext : (convert false (.binary o :: stay) rest).isSome := by
            simpa [convert, hrun] using hsome
          have ho : o.level ≤ atomLevel := Nat.le_of_lt (Nat.lt_succ_of_lt o.level_lt_unary)
          obtain ⟨ts', us', t', heq, hstay, ht', hloose⟩ := h.runTighter ht (loose_atomLevel st) ho hrun
          rw [heq]
          simpa using (ih (hstay.binary ht' hloose)).1 hnext
      | not => simp [convert] at hsome
      | opening => simp [convert] at hsome
      | closing =>
        cases hrun : runToOpening st with
        | none => simp [convert, hrun] at hsome
        | some p =>
          obtain ⟨run, stay⟩ := p
          have hnext : (convert true stay rest).isSome := by simpa [convert, hrun] using hsome
          obtain ⟨ts', us', t', heq, hstay, ht'⟩ := h.runToOpening ht (loose_atomLevel st) hrun
          rw [heq]
          simpa using (ih hstay).2 (.group ht') hnext

theorem toPostfix_isSome (tokens : List Token) :
    (toPostfix tokens).isSome ↔ ∃ t, Derives loosestLevel tokens t := by
  constructor
  · intro h
    exact (convert_reading tokens .start).1 h
  · rintro ⟨t, ht⟩
    rw [toPostfix_derives ht]
    rfl

/-! ## The worth of an expression -/

section Evaluate

variable {m : Type → Type} [Monad m] [LawfulMonad m]

/-- The finite number or truth value of a tree. -/
def Tree.worth (r : Resolver m) (scope : Path) (t : Tree) : m (Option Value) :=
  (t.value r scope >>= fun v => OptionT.mk (pure (finalValue? v))).run

theorem evaluate_eq_worth (r : Resolver m) (scope : Path) {text : String} {t : Tree}
    (h : compile? text = some t.steps) : evaluate r scope text = t.worth r scope := by
  have hrun : (runSteps r scope [] t.steps).run =
      (t.value r scope).run >>= fun x => pure (x.map ([·])) := by
    simp [runSteps_steps]
  rw [evaluate, h, Tree.worth]
  simp only [hrun, OptionT.run_bind, Option.elimM, bind_assoc, pure_bind]
  refine bind_congr fun x => ?_
  cases x <;> rfl

/-- **Expressions are read as the grammar says and are worth what their trees are worth.** -/
theorem evaluate_correct (r : Resolver m) (scope : Path) (tokens : List Token) :
    ((toPostfix tokens).isSome ↔ ∃ t, Derives loosestLevel tokens t) ∧
    (∀ t, Derives loosestLevel tokens t →
      (∀ u, Derives loosestLevel tokens u → u = t) ∧
      ∃ steps, toPostfix tokens = some steps ∧ heightAfter 0 steps = some 1 ∧
        runSteps r scope [] steps = (t.value r scope >>= fun v => pure [v])) ∧
    ∀ text : String, tokenize (trim text.toList) = some tokens →
      trim text.toList ≠ [] → onlyExpressionChars (trim text.toList) →
      (∀ t, Derives loosestLevel tokens t → evaluate r scope text = t.worth r scope) ∧
      ((¬∃ t, Derives loosestLevel tokens t) → evaluate r scope text = pure none) := by
  refine ⟨toPostfix_isSome tokens, fun t ht => ⟨fun u hu => hu.unique ht, t.steps, toPostfix_derives ht, ?_,
    runSteps_steps r scope t []⟩, fun text htokens hne honly => ?_⟩
  · rw [← List.append_nil t.steps, heightAfter_steps]
    rfl
  · have hcompile : compile? text = toPostfix tokens := by
      simp [compile?, htokens, hne, honly]
    constructor
    · intro t ht
      exact evaluate_eq_worth r scope (hcompile.trans (toPostfix_derives ht))
    · intro hnone
      rw [← toPostfix_isSome, ← hcompile, Option.not_isSome_iff_eq_none] at hnone
      rw [evaluate, hnone]

/-- A difference whose right side has a prefix operator, where every path reads as true. -/
theorem evaluate_correct_difference :
    tokenize "a-!b".toList = some [.identifier "a", .operator .sub, .not, .identifier "b"] ∧
    evaluate (m := Id) ⟨fun _ => some (Value.bool true), fun _ => none⟩ Path.root "a-!b" =
      Tree.worth (m := Id) ⟨fun _ => some (Value.bool true), fun _ => none⟩ Path.root
        (.binary .sub (.reference "a") (.unary .not (.reference "b"))) := by
  have htokens : tokenize "a-!b".toList =
      some [.identifier "a", .operator .sub, .not, .identifier "b"] := by rfl
  have hright : Derives (Binary.sub.level + 1) [.not, .identifier "b"] (.unary .not (.reference "b")) :=
    (Derives.not ((Derives.reference "b").mono (by decide))).mono (by decide)
  have htree : Derives loosestLevel [.identifier "a", .operator .sub, .not, .identifier "b"]
      (.binary .sub (.reference "a") (.unary .not (.reference "b"))) :=
    (Derives.binary ((Derives.reference "a").mono (by decide)) hright).mono (by decide)
  refine ⟨htokens, ?_⟩
  exact ((evaluate_correct (m := Id) _ Path.root _).2.2 "a-!b" htokens (by decide) (by rfl)).1 _ htree

end Evaluate

end PathLedger.Expr
