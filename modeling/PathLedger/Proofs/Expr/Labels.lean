import PathLedger.Expr.Evaluate

/-!
# Evaluation depends on the labels of a text

The identifiers of a text are all that its evaluation looks up, and each of them is looked up at two paths:
below the scope and from the root.

* `Expr.mem_references` — the labels of a text are the identifiers among its tokens.
* `Expr.mem_compile?` — the postfix form loads no other labels.
* `Expr.evaluate_congr` — **evaluations that resolve the labels alike are alike**.
* `Expr.Agree` — resolvers that agree wherever labels are looked up.
* `Expr.evaluate_agree` — **evaluation depends on what is looked up for the labels of a text, and on nothing else**.
* `Expr.evaluate_kind` — an evaluation gives a number or a truth value.
-/

namespace PathLedger.Expr

/-! ## The labels of a text -/

/-- Labels gathered behind those that have been seen are gathered once each, in the order in which they first occur. -/
theorem foldl_distinct (labels seen : List String) :
    labels.foldl (fun seen l => if seen.contains l then seen else seen ++ [l]) seen =
      seen ++ (labels.filter (!seen.contains ·)).eraseDups := by
  induction labels generalizing seen with
  | nil => simp
  | cons a rest ih =>
    rw [List.foldl_cons, ih]
    split
    · rename_i ha
      rw [List.filter_cons_of_neg (by simpa using ha)]
    · rename_i ha
      have hlater : rest.filter (!(seen ++ [a]).contains ·) = (rest.filter (!seen.contains ·)).filter (!· == a) := by
        rw [List.filter_filter]
        congr 1
        funext l
        rw [Bool.eq_iff_iff]
        simp [and_comm]
      rw [List.filter_cons_of_pos (by simpa using ha), List.eraseDups_cons, hlater, List.append_assoc,
        List.singleton_append]

/-- The label of an identifier. -/
def Token.label? : Token → Option String
  | .identifier l => some l
  | _ => none

/-- The labels of a text are those of its tokens, each where it first occurs. -/
theorem references_eq (text : String) :
    references text = (((tokenize (Text.trim text.toList)).getD []).filterMap Token.label?).eraseDups := by
  have hfresh (labels : List String) : labels.filter (!([] : List String).contains ·) = labels :=
    List.filter_eq_self.mpr fun _ _ => rfl
  unfold references
  dsimp only
  rw [foldl_distinct, List.nil_append, hfresh]
  rfl

/-- The labels of a text are the identifiers among its tokens. -/
theorem mem_references {text l : String} :
    l ∈ references text ↔ .identifier l ∈ (tokenize (Text.trim text.toList)).getD [] := by
  rw [references_eq, List.mem_eraseDups, List.mem_filterMap]
  constructor
  · rintro ⟨t, ht, hl⟩
    cases t with
    | identifier l' => exact Option.some.inj hl ▸ ht
    | _ => cases hl
  · intro h
    exact ⟨_, h, rfl⟩

/-! ## The labels of a postfix form -/

theorem runTighter_loads {level : Nat} {stack : List Waiting} {l : String} :
    .load l ∉ (runTighter level stack).1 := by
  induction stack with
  | nil => simp [runTighter]
  | cons w rest ih =>
    cases w with
    | unary o =>
      unfold runTighter
      split
      · simpa using ih
      · simp
    | binary o =>
      unfold runTighter
      split
      · simpa using ih
      · simp
    | opening => simp [runTighter]

theorem runToOpening_loads {stack stay : List Waiting} {run : List Step} {l : String}
    (h : runToOpening stack = some (run, stay)) : .load l ∉ run := by
  induction stack generalizing run with
  | nil => cases h
  | cons w rest ih =>
    cases w with
    | opening =>
      cases h
      simp
    | unary o =>
      obtain ⟨⟨more, below⟩, hmore, heq⟩ := Option.map_eq_some_iff.mp h
      cases heq
      simpa using ih hmore
    | binary o =>
      obtain ⟨⟨more, below⟩, hmore, heq⟩ := Option.map_eq_some_iff.mp h
      cases heq
      simpa using ih hmore

theorem runAll_loads {stack : List Waiting} {run : List Step} {l : String} (h : runAll stack = some run) :
    .load l ∉ run := by
  induction stack generalizing run with
  | nil =>
    cases h
    simp
  | cons w rest ih =>
    cases w with
    | opening => cases h
    | unary o =>
      obtain ⟨more, hmore, rfl⟩ := Option.map_eq_some_iff.mp h
      simpa using ih hmore
    | binary o =>
      obtain ⟨more, hmore, rfl⟩ := Option.map_eq_some_iff.mp h
      simpa using ih hmore

/-- The postfix form loads the identifiers among the tokens only. -/
theorem mem_convert {behind : Bool} {stack : List Waiting} {tokens : List Token} {steps : List Step}
    (h : convert behind stack tokens = some steps) {l : String} (hl : .load l ∈ steps) :
    .identifier l ∈ tokens := by
  induction tokens generalizing behind stack steps with
  | nil =>
    unfold convert at h
    split at h
    · exact absurd hl (runAll_loads h)
    · cases h
  | cons t rest ih =>
    refine List.mem_cons.mpr ?_
    cases t with
    | literal v =>
      unfold convert at h
      split at h
      · cases h
      · obtain ⟨more, hmore, rfl⟩ := Option.map_eq_some_iff.mp h
        exact .inr (ih hmore (by simpa using hl))
    | identifier label =>
      unfold convert at h
      split at h
      · cases h
      · obtain ⟨more, hmore, rfl⟩ := Option.map_eq_some_iff.mp h
        rcases List.mem_cons.mp hl with heq | hl
        · cases heq
          exact .inl rfl
        · exact .inr (ih hmore hl)
    | opening =>
      unfold convert at h
      split at h
      · cases h
      · exact .inr (ih h hl)
    | closing =>
      unfold convert at h
      split at h
      · split at h
        · cases h
        · rename_i run stay hrun
          obtain ⟨more, hmore, rfl⟩ := Option.map_eq_some_iff.mp h
          rcases List.mem_append.mp hl with hl | hl
          · exact absurd hl (runToOpening_loads hrun)
          · exact .inr (ih hmore hl)
      · cases h
    | not =>
      unfold convert at h
      split at h
      · cases h
      · exact .inr (ih h hl)
    | operator o =>
      unfold convert at h
      split at h
      · obtain ⟨more, hmore, rfl⟩ := Option.map_eq_some_iff.mp h
        rcases List.mem_append.mp hl with hl | hl
        · exact absurd hl runTighter_loads
        · exact .inr (ih hmore hl)
      · split at h
        · exact .inr (ih h hl)
        · cases h

theorem mem_compile? {text l : String} {steps : List Step} (h : compile? text = some steps)
    (hl : .load l ∈ steps) : l ∈ references text := by
  unfold compile? at h
  dsimp only at h
  split at h
  · cases h
  · obtain ⟨tokens, htokens, hsteps⟩ := Option.bind_eq_some_iff.mp h
    rw [mem_references, htokens]
    exact mem_convert hsteps hl

/-! ## Evaluation -/

variable {m : Type → Type} [Monad m] {r r' : Resolver m} {scope scope' : Path}

theorem runStep_congr {s : Step}
    (h : ∀ l, s = .load l → resolveIdentifier r scope l = resolveIdentifier r' scope' l)
    (stack : List Value) : runStep r scope stack s = runStep r' scope' stack s := by
  cases s with
  | load l => rw [runStep, runStep, h l rfl]
  | push v => rfl
  | unary o => rfl
  | binary o => rfl

theorem runSteps_congr {steps : List Step}
    (h : ∀ l, .load l ∈ steps → resolveIdentifier r scope l = resolveIdentifier r' scope' l)
    (stack : List Value) : runSteps r scope stack steps = runSteps r' scope' stack steps := by
  unfold runSteps
  induction steps generalizing stack with
  | nil => rfl
  | cons s rest ih =>
    have hrest := ih fun l hl => h l (List.mem_cons_of_mem _ hl)
    rw [List.foldlM_cons, List.foldlM_cons, runStep_congr fun l hl => h l (hl ▸ List.mem_cons_self)]
    exact congrArg _ (funext hrest)

/-- **Evaluations that resolve the labels of a text alike are alike.** -/
theorem evaluate_congr {text : String}
    (h : ∀ l ∈ references text, resolveIdentifier r scope l = resolveIdentifier r' scope' l) :
    evaluate r scope text = evaluate r' scope' text := by
  unfold evaluate
  cases hsteps : compile? text with
  | none => rfl
  | some steps =>
    dsimp only
    rw [runSteps_congr fun l hl => h l (mem_compile? hsteps hl)]

/-! ## What is looked up -/

/-- Two resolvers agree wherever labels are looked up from a scope: a label outside the pointer namespace below the scope
and from the root, a label inside it through the entry at the scope, below the target of the pointer there. -/
structure Agree (r r' : Resolver m) (scope : Path) (labels : List String) : Prop where
  below : ∀ l ∈ labels, pointerLabel? l = none →
    r.readPath (scope.join (Path.parse l)) = r'.readPath (scope.join (Path.parse l))
  outright : ∀ l ∈ labels, pointerLabel? l = none → r.readPath (Path.parse l) = r'.readPath (Path.parse l)
  entry : (∃ l ∈ labels, (pointerLabel? l).isSome) → r.indexEntry scope = r'.indexEntry scope
  pointed : ∀ l ∈ labels, ∀ rest, pointerLabel? l = some rest →
    ∀ target, r.indexEntry scope = some (.pointer target) →
      r.readPath ((Path.parse target).join (Path.parse rest)) = r'.readPath ((Path.parse target).join (Path.parse rest))

/-- Resolvers that agree on labels resolve each of them alike. -/
theorem Agree.resolveIdentifier {labels : List String} (h : Agree r r' scope labels) {l : String} (hl : l ∈ labels) :
    resolveIdentifier r scope l = resolveIdentifier r' scope l := by
  unfold Expr.resolveIdentifier
  cases hlabel : pointerLabel? l with
  | none =>
    dsimp only
    unfold Resolver.readFirst
    rw [h.below l hl hlabel, h.outright l hl hlabel]
  | some rest =>
    dsimp only
    rw [← h.entry ⟨l, hl, by rw [hlabel]; rfl⟩]
    cases hentry : r.indexEntry scope with
    | none => rfl
    | some v =>
      cases v with
      | pointer target =>
        have hread := h.pointed l hl rest hlabel target hentry
        simp only [Option.bind_some, Value.asPointer?, hread]
      | _ => rfl

/-- **Evaluation depends on what is looked up for the labels of a text, and on nothing else.** Whatever else two resolvers
read, a text has the same value with both when they agree on its labels. -/
theorem evaluate_agree {text : String} (h : Agree r r' scope (references text)) :
    evaluate r scope text = evaluate r' scope text :=
  evaluate_congr fun _ hl => h.resolveIdentifier hl

/-- A resolver that reads every path alike, but for the six that the labels of a text are looked up at. -/
def glimpse (elsewhere : Option Value) : Resolver Id where
  readPath p :=
    if p = ⟨["a"]⟩ || p = ⟨["t", "n"]⟩ then some (.bool true)
    else if p = ⟨["s", "c"]⟩ then some (.bool false)
    else if p = ⟨["s", "a"]⟩ || p = ⟨["c"]⟩ then none
    else elsewhere
  indexEntry p := if p = ⟨["s"]⟩ then some (.pointer "t") else elsewhere

/-- A label found from the root, one through a pointer and one below the scope, with resolvers that read all else
differently. -/
theorem evaluate_agree_glimpse :
    references "a == __ptr.n && !c" = ["a", "__ptr.n", "c"] ∧
    Agree (glimpse none) (glimpse (some .null)) ⟨["s"]⟩ (references "a == __ptr.n && !c") ∧
    evaluate (glimpse none) ⟨["s"]⟩ "a == __ptr.n && !c" =
      evaluate (glimpse (some .null)) ⟨["s"]⟩ "a == __ptr.n && !c" ∧
    (evaluate (glimpse none) ⟨["s"]⟩ "a == __ptr.n && !c").run = some (.bool true) := by
  have hlabels : references "a == __ptr.n && !c" = ["a", "__ptr.n", "c"] := by decide +kernel
  have hpointer : pointerLabel? "__ptr.n" = some "n" := by decide +kernel
  have hmem : ∀ l ∈ ["a", "__ptr.n", "c"], l = "a" ∨ l = "__ptr.n" ∨ l = "c" := by simp
  have hagree : Agree (glimpse none) (glimpse (some .null)) ⟨["s"]⟩ ["a", "__ptr.n", "c"] := by
    refine ⟨fun l hl hlabel => ?_, fun l hl hlabel => ?_, fun _ => rfl, fun l hl rest hlabel target hentry => ?_⟩
    · rcases hmem l hl with rfl | rfl | rfl
      · rfl
      · cases hpointer.symm.trans hlabel
      · rfl
    · rcases hmem l hl with rfl | rfl | rfl
      · rfl
      · cases hpointer.symm.trans hlabel
      · rfl
    · cases hentry
      rcases hmem l hl with rfl | rfl | rfl
      · cases hlabel
      · cases hpointer.symm.trans hlabel
        rfl
      · cases hlabel
  rw [hlabels]
  exact ⟨rfl, hagree, evaluate_agree (by rwa [hlabels]), by decide +kernel⟩

/-! ## The kind of a result -/

theorem finalValue?_kind {v w : Value} (h : finalValue? v = some w) :
    (∃ x, w = .number x) ∨ ∃ b, w = .bool b := by
  unfold finalValue? at h
  split at h
  · split at h
    · cases h
      exact .inl ⟨_, rfl⟩
    · cases h
  · cases h
    exact .inr ⟨_, rfl⟩
  · cases h

/-- An evaluation gives a number or a truth value. -/
theorem evaluate_kind {r : Resolver Option} {text : String} {w : Value}
    (h : evaluate r scope text = some (some w)) : (∃ x, w = .number x) ∨ ∃ b, w = .bool b := by
  unfold evaluate at h
  split at h
  · cases h
  · obtain ⟨stack, -, h⟩ := Option.bind_eq_some_iff.mp h
    split at h
    · exact finalValue?_kind (Option.some.inj h)
    · cases h

end PathLedger.Expr
