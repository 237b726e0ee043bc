import PathLedger.Proofs.Derivation.Cascades
import PathLedger.Proofs.Expr.Labels
import PathLedger.Proofs.Store.ReadBack
import PathLedger.Proofs.Store.Transparency

/-!
# Registering formulas

A formula derived at a name is registered, its references are bound in the store of that moment, and its value
is committed like any other value.

* `Store.deriveAt_word` — **a formula derived at a word is registered and computed**.
* `Store.write_eq_put` — a write at a plain path, whatever depends on it; `Store.isSome_result_recorded` — it returns
  when the pass that it sets off ends.
* `Derivation.bindReferences_root` — at the root a label is bound to the path that it spells.
* `Store.put_eq_pass` — a value that is put sets off a pass over what is downstream of it.
* `Store.put_of_no_subscribers` — what nothing depends on sets nothing off.
-/

namespace PathLedger

theorem Path.root_join (p : Path) : Path.root.join p = p := rfl

theorem Path.plain_word {name : String} (h : Text.isWord name) : Path.Plain ⟨[name]⟩ := by
  intro s hs
  obtain rfl := List.mem_singleton.mp hs
  exact Text.isWord_iff.mp h

theorem Path.key_word (name : String) : Path.key ⟨[name]⟩ = name := rfl

theorem Path.parse_word {name : String} (h : Text.isWord name) : parse name = ⟨[name]⟩ := by
  have hparse := parse_key (plain_word h)
  rwa [key_word] at hparse

theorem Path.canonical_word {name : String} (h : Text.isWord name) : canonical name = ⟨[name]⟩ := by
  have hcanonical := canonical_key (plain_word h)
  rwa [key_word] at hcanonical

/-- Values that are all found are found in turn. -/
theorem mapM_eq_some_iff {α β : Type} {f : α → Option β} {l : List α} {found : List β} :
    l.mapM f = some found ↔ (∀ a ∈ l, (f a).isSome) ∧ found = l.filterMap f := by
  induction l generalizing found with
  | nil => exact ⟨fun h => ⟨fun _ ha => (List.not_mem_nil ha).elim, (Option.some.inj h).symm⟩, fun h => h.2 ▸ rfl⟩
  | cons a rest ih =>
    rw [List.mapM_cons, Option.bind_eq_bind, Option.bind_eq_some_iff, List.forall_mem_cons]
    constructor
    · rintro ⟨b, hb, h⟩
      obtain ⟨more, hmore, h⟩ := Option.bind_eq_some_iff.mp h
      obtain ⟨hrest, rfl⟩ := ih.mp hmore
      obtain rfl := Option.some.inj h
      exact ⟨⟨by rw [hb]; rfl, hrest⟩, (List.filterMap_cons_some hb).symm⟩
    · rintro ⟨⟨hfirst, hrest⟩, rfl⟩
      obtain ⟨b, hb⟩ := Option.isSome_iff_exists.mp hfirst
      refine ⟨b, hb, Option.bind_eq_some_iff.mpr ⟨_, ih.mpr ⟨hrest, rfl⟩, ?_⟩⟩
      rw [List.filterMap_cons_some hb]
      rfl

namespace Derivation

section Bind

variable {r : Resolver Option} {expression label : String} {scope : Path}

/-- A label that reads as something below the scope is bound there. -/
theorem bindPath_relative {v : Value} (h : r.readPath (scope.join (Path.canonical label)) = some (some v)) :
    bindPath r scope label = some (scope.join (Path.canonical label)) := by
  unfold bindPath
  dsimp only
  rw [h]
  rfl

/-- Where a label is bound that reads as nothing below the scope. -/
theorem bindPath_absolute {found : Option Value}
    (h : r.readPath (scope.join (Path.canonical label)) = some none)
    (habsolute : r.readPath (Path.canonical label) = some found) :
    bindPath r scope label = some (if found.isSome || label.toList.contains '.' then Path.canonical label
      else scope.join (Path.canonical label)) := by
  unfold bindPath
  dsimp only
  rw [h, habsolute]
  exact (apply_ite some _ _ _).symm

/-- A label is bound below the scope or as an absolute path. -/
theorem bindPath_cases {p : Path} (h : bindPath r scope label = some p) :
    p = scope.join (Path.canonical label) ∨ p = Path.canonical label := by
  unfold bindPath at h
  obtain ⟨first, -, h⟩ := Option.bind_eq_some_iff.mp h
  split at h
  · exact .inl (Option.some.inj h).symm
  · obtain ⟨second, -, h⟩ := Option.bind_eq_some_iff.mp h
    split at h
    · exact .inr (Option.some.inj h).symm
    · exact .inl (Option.some.inj h).symm

theorem bindPath_root (h : (r.readPath (Path.canonical label)).isSome) :
    bindPath r .root label = some (Path.canonical label) := by
  obtain ⟨found, hfound⟩ := Option.isSome_iff_exists.mp h
  have hbelow := hfound
  rw [← Path.root_join (Path.canonical label)] at hbelow
  cases found with
  | some v => rw [bindPath_relative hbelow, Path.root_join]
  | none => rw [bindPath_absolute hbelow hfound, Path.root_join, ite_self]

/-- The references of a formula, before those to one key are joined, once every label is bound. -/
theorem bindReferences_eq_some_iff {refs : List Reference} :
    bindReferences r expression scope = some refs ↔
      (∀ label ∈ boundLabels expression, (bindPath r scope label).isSome) ∧
        refs = firstPerKey ((boundLabels expression).filterMap fun label =>
          (bindPath r scope label).map fun p => ⟨label, p.key⟩) := by
  have hbound (label : String) : (do
      let p ← bindPath r scope label
      pure (Reference.mk label p.key)) = (bindPath r scope label).map fun p => ⟨label, p.key⟩ :=
    Option.map_eq_bind.symm
  unfold bindReferences
  simp only [hbound]
  rw [Option.bind_eq_bind, Option.bind_eq_some_iff]
  constructor
  · rintro ⟨all, hall, heq⟩
    obtain ⟨hsome, rfl⟩ := mapM_eq_some_iff.mp hall
    exact ⟨fun label hlabel => by simpa using hsome label hlabel, (Option.some.inj heq).symm⟩
  · rintro ⟨hsome, rfl⟩
    exact ⟨_, mapM_eq_some_iff.mpr ⟨fun label hlabel => by simpa using hsome label hlabel, rfl⟩, rfl⟩

/-- At the root a label is bound to the path that it spells. -/
theorem bindReferences_root (h : ∀ label ∈ boundLabels expression, (r.readPath (Path.canonical label)).isSome) :
    bindReferences r expression .root =
      some (firstPerKey ((boundLabels expression).map fun label => ⟨label, (Path.canonical label).key⟩)) := by
  have hbound (label : String) (hlabel : label ∈ boundLabels expression) := bindPath_root (h label hlabel)
  refine bindReferences_eq_some_iff.mpr ⟨fun label hlabel => by rw [hbound label hlabel]; rfl, ?_⟩
  rw [← List.filterMap_eq_map]
  exact congrArg firstPerKey (List.filterMap_congr fun label hlabel => by rw [hbound label hlabel]; rfl)

end Bind

end Derivation

namespace Store

variable {s : Store}

/-- A reading of the clock without a record. -/
theorem Ticks.advance {t : Store} {n : Nat} (h : Ticks s (n + 1)) (hledger : t.ledger = s.ledger)
    (hclock : t.clock = s.clock.advance) : Ticks t n := by
  have hnext (i : Nat) : t.clock.readings (t.clock.taken + i) =
      s.clock.readings (s.clock.taken + (i + 1)) := by
    rw [hclock, Nat.add_comm i, ← Nat.add_assoc]
    rfl
  constructor
  · intro i j hij hj
    rw [hnext, hnext]
    exact h.increasing (i + 1) (j + 1) (by omega) (by omega)
  · intro r hr i hi
    rw [hledger] at hr
    rw [hnext]
    exact h.behind r hr (i + 1) (by omega)

/-- What a formula gives is a number, a truth value or a text. -/
theorem valueOf_isData {expression : String} {scope : Path} {v : Value} (h : s.valueOf expression scope = some v) :
    v.IsData := by
  obtain ⟨found, hvalue, rfl⟩ := Option.map_eq_some_iff.mp h
  unfold Derivation.valueOrExpression
  cases found with
  | none => exact ⟨rfl, fun _ => Value.noConfusion⟩
  | some v =>
    rcases Expr.evaluate_kind hvalue with ⟨x, rfl⟩ | ⟨b, rfl⟩
    · exact ⟨rfl, fun _ => Value.noConfusion⟩
    · exact ⟨rfl, fun _ => Value.noConfusion⟩

theorem deriveEach_single (s : Store) (scope : Path) (name expression : String) (last : Effect) :
    (s.deriveEach name last [(scope, expression)]).1 = (s.deriveOne scope name expression).1 := by
  unfold deriveEach
  split <;> rename_i heq <;> rw [heq]
  rfl

theorem broadcast_root (s : Store) (expression : String) :
    s.broadcast .root expression = some [(.root, expression)] := rfl

/-- **A formula derived at a word is registered and computed.** -/
theorem deriveAt_word {name expression : String} (hname : Text.isWord name)
    (hexpression : (Text.trimmed expression).isEmpty = false) :
    (s.deriveAt name expression).store = (s.deriveOne .root name (Text.trimmed expression)).1 := by
  have hclass (path : Path) : Operator.classifyKind .derive (Path.parse name) path (.text expression) =
      .ok (.derive .root name (Text.trimmed expression)) := by
    rw [Path.parse_word hname]
    show Operator.classifyDerive ⟨[name]⟩ path (.text expression) = _
    unfold Operator.classifyDerive
    dsimp only
    rw [hexpression]
    rfl
  have happly : (s.apply (.derive .root name (Text.trimmed expression))).store =
      (s.derive .root name (Text.trimmed expression)).1 := by
    unfold Store.apply
    dsimp only
  unfold Store.deriveAt
  rw [callKind_store hclass, happly, derive, broadcast_root]
  exact s.deriveEach_single _ _ _ _

/-- Below the root a formula is registered at a word. -/
theorem registered_word (s : Store) {name : String} (hname : Text.isWord name) (expression : String)
    (refs : List Reference) :
    (s.registered .root name expression refs).derivations =
      s.derivations.register ⟨[name]⟩ ⟨expression, .root, refs, s.clock.now⟩ := by
  unfold registered
  dsimp only
  rw [Path.canonical_word hname, Path.root_join]

/-- A write at a plain path commits a value and computes anew what depends on it. -/
theorem write_eq_put {p : Path} (h : p.Plain)
    (hleaf : ∀ leaf, p.last? = some leaf → s.operators.kindOf? leaf = none) (v : Value) :
    s.write p.key v none = apply.committed (s.put p v none) := by
  have hset : Operator.classify s.operators p v none = .ok (.set p v) := by
    cases hroot : p.isRoot with
    | false => exact classify_plain h hroot hleaf v
    | true =>
      obtain ⟨segments⟩ := p
      obtain rfl : segments = [] := by simpa [Path.isRoot] using hroot
      rfl
  rw [write, Path.parse_key h, hset]
  rfl

/-- A record that sets off a pass counts when the pass ends. -/
theorem isSome_result_recorded (r : Record) (pass : Store × Bool) :
    (apply.committed (recorded r pass)).result.isSome = pass.2 := by
  obtain ⟨t, ends⟩ := pass
  cases ends <;> rfl

/-- Without an effective secret a value is stored as it is, and so is one that was computed. -/
theorem storedForm_of_effectiveSecret_eq_empty {p : Path} (h : s.scopes.effectiveSecret p = "") (v : Value)
    (operator : Option Operator.Kind) : s.storedForm p v operator = v := by
  unfold storedForm
  rw [h]
  rfl

/-- A value that is put sets off a pass. -/
theorem put_eq_pass (s : Store) (p : Path) (v : Value) (operator : Option Operator.Kind) :
    s.put p v operator = recorded (s.commitValue p v operator).2
      ((s.commitValue p v operator).1.recomputeEach (s.downstream (Derivation.Graph.changedAt p))) := by
  unfold put invalidate downstream
  dsimp only
  rw [commitValue_derivations]

/-- A formula derived at a word is registered, its value is committed, and what the word sets off is computed
anew. -/
theorem deriveAt_eq_pass (s : Store) {name expression : String} (hname : Text.isWord name)
    (htrimmed : Text.trimmed expression = expression) (hne : expression.isEmpty = false) {refs : List Reference}
    (hrefs : Derivation.bindReferences s.resolver expression .root = some refs) {v : Value}
    (hv : (s.registered .root name expression refs).valueOf expression .root = some v) :
    (s.deriveAt name expression).store =
      (((s.registered .root name expression refs).commitValue ⟨[name]⟩ v (some .derive)).1.recomputeEach
        ((s.registered .root name expression refs).downstream [name])).1 := by
  rw [deriveAt_word hname (by rw [htrimmed, hne]), htrimmed, deriveOne_of_bound hrefs name hv,
    Path.canonical_word hname, Path.root_join, put_eq_pass]
  rfl

/-- What nothing depends on sets nothing off. -/
theorem downstream_of_no_subscribers {key : String} (h : s.derivations.subscribersOf key = []) :
    s.downstream [key] = [] := by
  unfold downstream
  rw [Derivation.Graph.cascade_of_closed, h]
  · rw [h]
    exact List.nodup_nil
  · rw [h]
    intro t ht
    cases ht

/-- What one formula depends on sets off that formula, when nothing depends on it in turn. -/
theorem downstream_of_one_subscriber {key target : String} (h : s.derivations.subscribersOf key = [target])
    (hnone : s.derivations.subscribersOf target = []) : s.downstream [key] = [target] := by
  unfold downstream
  rw [Derivation.Graph.cascade_of_closed, h]
  · rw [h]
    exact List.pairwise_singleton _ target
  · rw [h]
    intro t ht u hu
    obtain rfl := List.mem_singleton.mp ht
    rw [hnone] at hu
    cases hu

theorem put_of_no_subscribers {p : Path} (h : s.derivations.subscribersOf p.key = []) (v : Value)
    (operator : Option Operator.Kind) :
    s.put p v operator = ((s.commitValue p v operator).1, some (s.commitValue p v operator).2) := by
  have hnone : s.downstream (Derivation.Graph.changedAt p) = [] := by
    unfold Derivation.Graph.changedAt
    split
    · unfold downstream Derivation.Graph.cascade
      rw [Derivation.Graph.cascadeFrom_nil]
    · exact downstream_of_no_subscribers h
  rw [put_eq_pass, hnone]
  rfl

end Store

end PathLedger
