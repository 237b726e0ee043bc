import PathLedger.Proofs.Index.Echo
import PathLedger.Proofs.Store.PlainRuns
import PathLedger.Store.Inspect

/-!
# Replays

A replay takes the records of a store one after another and does each again in a cleared store: values are committed as
they were given or computed, declarations are made with a marker for their text, removals are made again. While the
records are being made and replayed, the two stores declare the same scopes, and their records echo each other.

* `Store.Echoes` — a store, and one that was made again from its records.
* `Store.replayRecord_value`, `Store.replayRecord_secret`, `Store.replayRecord_noise`, `Store.replayRecord_removal` —
  what a record does again.
* `Store.Replays` — the records of a store can be replayed, and give an echo.
* `Store.Replays.change` — **every plain change keeps it so**.
* `Store.replay_reproduces` — **a replay reproduces the index**, but for what is sealed in it.
-/

namespace PathLedger.Store

variable {s t : Store} {p : Path} {v : Value} {operator : Option Operator.Kind}

/-! ## What a record does again -/

theorem replayRecords_append {t u : Store} {records : List Record} {r : Record}
    (h : s.replayRecords records = ⟨t, some (.ok ())⟩) (hr : t.replayRecord r = ⟨u, some (.ok ())⟩) :
    s.replayRecords (records ++ [r]) = ⟨u, some (.ok ())⟩ := by
  induction records generalizing s with
  | nil =>
    obtain rfl : s = t := congrArg Outcome.store h
    simp only [List.nil_append, replayRecords, hr]
  | cons a rest ih =>
    rw [replayRecords] at h
    rw [List.cons_append, replayRecords]
    split at h
    · exact ih h
    · rename_i hnot
      exact absurd h (hnot t)

theorem carriedText?_of_expression {r : Record} {pick : Value → Option String} {text : String}
    (h : pick r.expression = some text) (hne : text ≠ "") : carriedText? r pick = some text := by
  rw [carriedText?, h, Option.some_or, Option.some_or, Option.filter_some, if_pos (by simpa using hne)]

/-- A record of a value commits it again. -/
theorem replayRecord_value (ht : Settled t) (hp : p.Plain) (hcarries : Operator.Carries v operator) {r : Record}
    (hpath : r.path = p.key) (hoperator : r.operator = operator) (hexpression : r.expression = v)
    (hvalue : r.value = s.recordedForm p v operator) :
    t.replayRecord r = ⟨(t.commitValue p v operator).1, some (.ok ())⟩ := by
  rw [← ht.done_put]
  unfold replayRecord
  rw [hoperator, hpath, hp.ofKey_key]
  cases operator with
  | none =>
    dsimp only
    rw [hexpression]
  | some kind =>
    cases kind with
    | derive =>
      dsimp only
      rw [hvalue, recordedForm_of_staysPlain rfl]
    | query =>
      dsimp only
      rw [hvalue, recordedForm_of_staysPlain rfl]
    | pointer =>
      obtain ⟨q, hq, hroot, rfl⟩ := hcarries
      have hne : q.key ≠ "" := Path.key_ne_empty (fun s hs => (hq s hs).1) hroot
      have htext : carriedText? r Value.asPointer? = some q.key :=
        carriedText?_of_expression (by rw [hexpression]; rfl) hne
      simp only [htext, Path.canonical_key hq]
      rfl
    | identity =>
      obtain ⟨name, hname, rfl⟩ := hcarries
      have htext : carriedText? r Value.asIdentity? = some name :=
        carriedText?_of_expression (by rw [hexpression]; rfl) (Username.ne_empty hname)
      simp only [htext, declareIdentity, callKind_eq, kindAt, classifyKind_identity hname, Path.parse_key hp,
        Path.normalize_plain hp]
      rfl
    | _ => cases hcarries

section Markers

variable {scope : Path} {r : Record}

/-- A record of a secret declares one again, with the marker for its text. -/
theorem replayRecord_secret (ht : Settled t) (hscope : scope.Plain) (hpath : r.path = scope.key)
    (hoperator : r.operator = some .secret) (hexpression : r.expression = .text declarationText) :
    t.replayRecord r = ⟨t.change (.secret scope declarationText), some (.ok ())⟩ := by
  have hdeclared : Settled { t with scopes := t.scopes.declareSecret scope declarationText } := ht
  unfold replayRecord change
  rw [hoperator, hpath, hscope.ofKey_key, declaredText, hexpression]
  dsimp only
  rw [← hdeclared.done_declare]
  rfl

theorem replayRecord_noise (ht : Settled t) (hscope : scope.Plain) (hpath : r.path = scope.key)
    (hoperator : r.operator = some .noise) (hexpression : r.expression = .text declarationText) :
    t.replayRecord r = ⟨t.change (.noise scope declarationText), some (.ok ())⟩ := by
  have hdeclared : Settled { t with scopes := t.scopes.declareNoise scope declarationText } := ht
  unfold replayRecord change
  rw [hoperator, hpath, hscope.ofKey_key, declaredText, hexpression]
  dsimp only
  rw [← hdeclared.done_declare]
  rfl

theorem replayRecord_removal (t : Store) (hp : p.Plain) (hpath : r.path = p.key)
    (hoperator : r.operator = some .remove) : t.replayRecord r = ⟨(t.removeSubtree p).1, some (.ok ())⟩ := by
  unfold replayRecord
  rw [hoperator, hpath, hp.ofKey_key]
  rfl

end Markers

/-! ## Stores made again -/

/-- A store, and one that was made again from its records, from a clock on. -/
structure Echoes (clock : Clock) (s t : Store) : Prop where
  settled : Settled t
  scopes : s.scopes.Alike t.scopes
  records : List.Forall₂ Record.Echoes s.ledger.records t.ledger.records
  taken : t.clock.taken = clock.taken + t.ledger.length

/-- The records of a store can be replayed, and give an echo of it. -/
def Replays (start s : Store) : Prop :=
  ∃ t, start.replay s.ledger.records = ⟨t, some (.ok ())⟩ ∧ Echoes start.clock s t

variable {start : Store}

/-- A draft committed in a store, and one that echoes it in the other. -/
theorem Echoes.commit {clock : Clock} (h : Echoes clock s t) {u w : Store} (hs : u.ledger = s.ledger)
    (ht : w.ledger = t.ledger) (hclock : w.clock = t.clock) (hsettled : Settled w)
    (hscopes : u.scopes.Alike w.scopes) {d d' : Draft} (hpath : d'.path = d.path)
    (hoperator : d'.operator = d.operator) (hvalue : d.value.Echoes d'.value) :
    Echoes clock (u.commit d).1 (w.commit d').1 where
  settled := hsettled
  scopes := hscopes
  records := by
    rw [commit_records, commit_records, hs, ht]
    exact List.rel_append h.records (.cons ⟨congrArg Path.key hpath, hoperator, hvalue⟩ .nil)
  taken := by
    rw [commit_clock, Ledger.length, commit_records, ht, hclock, List.length_append]
    show t.clock.taken + 1 = _
    rw [h.taken, Nat.add_assoc]
    rfl

theorem storedForm_echoes (h : s.scopes.Alike t.scopes) (p : Path) (v : Value) (operator : Option Operator.Kind) :
    (s.storedForm p v operator).Echoes (t.storedForm p v operator) := by
  unfold storedForm
  dsimp only
  rw [h.effectiveSecret_isEmpty]
  split
  · exact .inl rfl
  · exact .inr ⟨_, rfl⟩

theorem recordedForm_echoes (h : s.scopes.Alike t.scopes) (p : Path) (v : Value) (operator : Option Operator.Kind) :
    (s.recordedForm p v operator).Echoes (t.recordedForm p v operator) := by
  unfold recordedForm
  rw [h.hidingScope?]
  split
  · exact .inl rfl
  · exact storedForm_echoes h p v operator

/-! ## Runs and their replays -/

/-- Only the records and the declarations of the store matter. -/
theorem Replays.congr (h : Replays start s) {u : Store} (hledger : u.ledger = s.ledger)
    (hscopes : u.scopes = s.scopes) : Replays start u := by
  obtain ⟨t, hreplay, hecho⟩ := h
  refine ⟨t, by rw [hledger, hreplay], hecho.settled, ?_, ?_, hecho.taken⟩
  · rw [hscopes]
    exact hecho.scopes
  · rw [hledger]
    exact hecho.records

theorem Replays.value (h : Replays start s) (hp : p.Plain) (hcarries : Operator.Carries v operator) :
    Replays start (s.commitValue p v operator).1 := by
  obtain ⟨t, hreplay, hecho⟩ := h
  obtain ⟨r, hrecords, hpath, hoperator, hexpression, hvalue⟩ := s.commitValue_records p v operator
  have hr := replayRecord_value hecho.settled hp hcarries hpath hoperator hexpression hvalue
  refine ⟨_, by rw [hrecords]; exact replayRecords_append hreplay hr, ?_⟩
  obtain ⟨u, hu, hcommit⟩ := s.exists_commitValue_eq p v operator
  obtain ⟨w, hw, hcommit'⟩ := t.exists_commitValue_eq p v operator
  have hscopes : u.scopes.Alike w.scopes := by
    rw [hu.scopes, hw.scopes]
    exact hecho.scopes
  rw [hcommit, hcommit']
  exact hecho.commit hu.ledger hw.ledger hw.clock (hecho.settled.of_derivations hw.derivations) hscopes rfl rfl
    (recordedForm_echoes hecho.scopes p v operator)

theorem isEmpty_eq_declarationText {text : String} (h : text ≠ "") : text.isEmpty = declarationText.isEmpty := by
  rw [Bool.eq_false_iff.mpr (mt String.isEmpty_iff.mp h)]
  rfl

/-- A declaration, when it is done again with the scopes still alike. -/
theorem Replays.declare (h : Replays start s) {scope : Path} {operator : Operator.Kind} {f g : Scopes → Scopes}
    (hagain : ∀ {t : Store} {r : Record}, Settled t → r.path = scope.key → r.operator = some operator →
      r.expression = .text declarationText → t.replayRecord r =
        ⟨({ t with scopes := g t.scopes }.commitMarker scope operator (.text declarationText)).1, some (.ok ())⟩)
    (halike : ∀ {a b : Scopes}, a.Alike b → (f a).Alike (g b)) :
    Replays start ({ s with scopes := f s.scopes }.commitMarker scope operator (.text declarationText)).1 := by
  obtain ⟨t, hreplay, hecho⟩ := h
  refine ⟨_, replayRecords_append hreplay (hagain hecho.settled rfl rfl rfl), ?_⟩
  exact hecho.commit (u := { s with scopes := f s.scopes }) (w := { t with scopes := g t.scopes }) rfl rfl rfl
    hecho.settled (halike hecho.scopes) rfl rfl (.inl rfl)

theorem Replays.secret (h : Replays start s) {scope : Path} (hscope : scope.Plain) {text : String} (htext : text ≠ "") :
    Replays start (s.change (.secret scope text)) :=
  h.declare (f := (·.declareSecret scope text)) (g := (·.declareSecret scope declarationText))
    (fun ht => replayRecord_secret ht hscope) fun hab => hab.declareSecret scope (isEmpty_eq_declarationText htext)

theorem Replays.noise (h : Replays start s) {scope : Path} (hscope : scope.Plain) {text : String} (htext : text ≠ "") :
    Replays start (s.change (.noise scope text)) :=
  h.declare (f := (·.declareNoise scope text)) (g := (·.declareNoise scope declarationText))
    (fun ht => replayRecord_noise ht hscope) fun hab => hab.declareNoise scope (isEmpty_eq_declarationText htext)

theorem Replays.removal (h : Replays start s) (hp : p.Plain) : Replays start (s.removeSubtree p).1 := by
  obtain ⟨t, hreplay, hecho⟩ := h
  have hu := frame_pruned s p
  have hw := frame_pruned t p
  have hsettled : Settled (t.pruned p) :=
    hecho.settled.of_derivations (hw.derivations.trans (hecho.settled.clearUnder p))
  have hscopes : (s.pruned p).scopes.Alike (t.pruned p).scopes := by
    rw [hu.scopes, hw.scopes]
    exact hecho.scopes.purgeUnder p
  refine ⟨(t.removeSubtree p).1, ?_, ?_⟩
  · rw [removeSubtree_eq, commit_records, hu.ledger]
    exact replayRecords_append hreplay (replayRecord_removal t hp rfl rfl)
  · rw [removeSubtree_eq, removeSubtree_eq]
    exact hecho.commit hu.ledger hw.ledger hw.clock hsettled hscopes rfl rfl (.inl rfl)

/-- **Every plain change of a store keeps its records such that they can be replayed.** -/
theorem Replays.change (h : Replays start s) (htargets : PlainTargets s) {c : Change} (hc : c.Plain) :
    Replays start (s.change c) := by
  cases c with
  | value p v operator => exact h.value hc.1 hc.2
  | secret scope text => exact h.secret hc.1 hc.2
  | noise scope text => exact h.noise hc.1 hc.2
  | removal target => exact h.removal hc
  | register scope name expression =>
    obtain hsame | ⟨refs, -, hdone⟩ := s.change_register_cases scope name expression
    · rw [hsame]
      exact h
    · rw [hdone]
      exact h.congr rfl rfl
  | recompute target =>
    obtain hsame | ⟨d, v, hd, -, hdone⟩ := s.change_recompute_cases target
    · rw [hsame]
      exact h
    · obtain ⟨p, hp, rfl⟩ := htargets target (by rw [hd]; rfl)
      have hcarries : Operator.Carries v (some .derive) := trivial
      rw [hdone, hp.ofKey_key]
      exact (h.value hp hcarries).congr rfl rfl
  | operators r => exact h.congr rfl rfl

theorem Replays.empty (start : Store) (clock : Clock) : Replays start (empty clock) :=
  ⟨start.cleared, rfl, fun _ => rfl, .refl _, .nil, rfl⟩

/-- **The records of every store that is plainly reached can be replayed.** -/
theorem PlainlyReached.replays {clock : Clock} (h : PlainlyReached clock s) (start : Store) : Replays start s := by
  have htargets : PlainTargets (Store.empty clock) := fun _ ht => nomatch ht
  refine (h.leads.keeps (P := fun s => Replays start s ∧ PlainTargets s) ?_ ⟨.empty start clock, htargets⟩).1
  exact fun u c hc ⟨hu, ht⟩ => ⟨hu.change ht hc, ht.change hc.overPlain⟩

/-- An identity claimed in the clear keeps a run plain, and is what its key holds. -/
theorem PlainlyReached.claim {clock : Clock} (h : PlainlyReached clock s) (hsettled : Settled s)
    (hcurrent : IndexCurrent s) (hfresh : Fresh s) {p : Path} (hp : p.Plain)
    (hclear : s.scopes.hidingScope? p = none) {username name : String}
    (hname : Username.normalize username = .ok name) :
    PlainlyReached clock (s.after (.declareIdentity p.key username)) ∧
      s.after (.declareIdentity p.key username) = (s.commitValue p (.identity name) (some .identity)).1 ∧
      (s.after (.declareIdentity p.key username)).index = s.index.insert p.key (.identity name) := by
  have hmeans : s.meaning? (.declareIdentity p.key username) = some (.ok (.identify p name)) := by
    rw [meaning?, kindAt, classifyKind_identity hname, Path.parse_key hp, Path.normalize_plain hp]
  have hstore : s.after (.declareIdentity p.key username) = (s.commitValue p (.identity name) (some .identity)).1 := by
    have hclaim := declareIdentity_store hsettled p.key hname
    rwa [Path.canonical_key hp] at hclaim
  refine ⟨h.call hmeans fun j hj => ?_, hstore, ?_⟩
  · cases hj
    exact hp
  · rw [hstore, commitValue_index_of_setsKey hcurrent hfresh hp.clean hclear (.identity name) rfl,
      storedForm_of_isMarker rfl]

/-! ## The index after a replay -/

/-- Records in the order of time give indexes that echo each other. -/
theorem Echoes.index {clock : Clock} (h : Echoes clock s t) (hs : IndexCurrent s) (ht : IndexCurrent t)
    (hincreasing : s.ledger.records.Pairwise fun a b => a.timestamp < b.timestamp)
    (hincreasing' : t.ledger.records.Pairwise fun a b => a.timestamp < b.timestamp) : s.index.Echoes t.index := by
  rw [hs, ht, Index.materialize_of_increasing hincreasing, Index.materialize_of_increasing hincreasing']
  exact Index.echoes_foldl h.scopes h.records .empty

/-- **A replay reproduces the index.** The records of a store that is plainly reached under a clock that runs forward,
replayed on any store whose clock runs forward, give a ledger that verifies, with the same paths and operators, and an
index with the same keys, and the same values where they are not sealed. -/
theorem replay_reproduces {clock : Clock} (hs : PlainlyReached clock s)
    (hclock : clock.Increasing (s.clock.taken - clock.taken)) (hclock' : t.clock.Increasing s.ledger.length) :
    ∃ u, t.replay s.ledger.records = ⟨u, some (.ok ())⟩ ∧ u.ledger.length = s.ledger.length ∧
      (u.ledger.records.map fun r => (r.path, r.operator)) =
        (s.ledger.records.map fun r => (r.path, r.operator)) ∧
      u.verify = .ok () ∧ (∀ key, (u.index.get? key).isSome = (s.index.get? key).isSome) ∧
      ∀ key v, s.index.get? key = some v → (∀ blob, v ≠ .ciphertext blob) → u.index.get? key = some v := by
  obtain ⟨u, hreplay, hecho⟩ := hs.replays t
  have hleads : Leads KeepsOperators t.cleared u := by
    have hleads := t.cleared.replayRecords_leads s.ledger.records
    rwa [show t.cleared.replayRecords s.ledger.records = ⟨u, some (.ok ())⟩ from hreplay] at hleads
  have hverify : u.ledger.verify = .ok () := verified_stable.leads hleads rfl
  have hstamped : s.ledger.Stamped clock s.clock := (stamped_stable clock).leads hs.leads (.empty clock)
  have hstamped' : u.ledger.Stamped t.clock u.clock := (stamped_stable t.clock).leads hleads (.empty t.clock)
  have hlength : u.ledger.length = s.ledger.length := hecho.records.length_eq.symm
  have htaken : u.clock.taken - t.clock.taken = s.ledger.length := by
    rw [hecho.taken, hlength, Nat.add_sub_cancel_left]
  have hindex : s.index.Echoes u.index :=
    hecho.index (indexCurrent_stable.leads hs.leads (indexCurrent_empty clock)) (indexCurrent_stable.leads hleads rfl)
      (hstamped.increasing hclock) (hstamped'.increasing (by rwa [htaken]))
  exact ⟨u, hreplay, hlength, Record.map_of_echoes hecho.records, hverify, hindex.isSome, fun _ _ => hindex.get?⟩

/-- A secret at the root. -/
def sealing : Store := (empty (.ticking 1000 1)).after (.declareSecret "" "k")

/-- A value sealed in place under it, and an identity, which is never sealed. -/
def sealedRun : Store :=
  (sealing.after (.write "a" (.ofJson (.int 1)) none)).after (.declareIdentity "me" "abc")

theorem sealing_parts :
    PlainlyReached (.ticking 1000 1) sealing ∧ Settled sealing ∧ IndexCurrent sealing ∧ Ticks sealing 2 ∧
      sealing.operators = .initial ∧ sealing.scopes = Scopes.empty.declareSecret .root "k" ∧
      sealing.clock.taken = 1 ∧ sealing.ledger.length = 1 := by
  have hticks : Ticks (empty (.ticking 1000 1)) 3 := ticks_empty (increasing_ticking (by decide))
  have hreached : PlainlyReached (.ticking 1000 1) sealing :=
    .call .start (c := .declareSecret "" "k") rfl fun j hj => by cases hj; exact ⟨by decide, by decide⟩
  have hstore : sealing = _ := declareSecret_store (s := empty (.ticking 1000 1)) (fun _ => rfl) "" "k"
  refine ⟨hreached, ?_⟩
  rw [hstore, commitMarker]
  refine ⟨fun _ => rfl, indexCurrent_commit _ _, ?_, rfl, rfl, rfl, rfl⟩
  exact Ticks.commit (t := { empty (.ticking 1000 1) with
    scopes := Scopes.empty.declareSecret (Path.canonical "") "k" }) hticks rfl rfl _

theorem sealedRun_parts :
    PlainlyReached (.ticking 1000 1) sealedRun ∧ sealedRun.clock.taken = 3 ∧ sealedRun.ledger.length = 3 ∧
      (sealedRun.index.get? "a").isSome ∧ sealedRun.index.get? "me" = some (.identity "abc") := by
  obtain ⟨hreached, hsettled, hcurrent, hticks, hoperators, hscopes, htaken, hlength⟩ := sealing_parts
  have ha : Path.Plain ⟨["a"]⟩ := by decide
  have hleaf : ∀ leaf, Path.last? ⟨["a"]⟩ = some leaf → sealing.operators.kindOf? leaf = none := by
    intro leaf hleaf
    obtain rfl := Option.some.inj hleaf
    rw [hoperators]
    decide
  -- The value is written.
  have hset : sealing.meaning? (.write "a" (.ofJson (.int 1)) none) = some (.ok (.set ⟨["a"]⟩ (.ofJson (.int 1)))) :=
    congrArg some (classify_plain ha (by decide) hleaf _)
  have hwritten := hreached.call hset fun j hj => by cases hj; exact ha
  have hstore : sealing.after (.write "a" (.ofJson (.int 1)) none) = _ :=
    (write_plain hsettled ha (by decide) hleaf _).1
  have hindex := commitValue_index hcurrent hticks.fresh ha.clean (by rw [hscopes]; decide) (.ofJson (.int 1))
  obtain ⟨r, hrecords, -⟩ := sealing.commitValue_records ⟨["a"]⟩ (.ofJson (.int 1)) none
  have hticks := hticks.commitValue ⟨["a"]⟩ (.ofJson (.int 1)) none
  have hcurrent := indexCurrent_stable.value ⟨["a"]⟩ (.ofJson (.int 1)) none hcurrent
  have hsettled := hsettled.of_derivations (sealing.commitValue_derivations ⟨["a"]⟩ (.ofJson (.int 1)) none)
  have hclock := sealing.commitValue_clock ⟨["a"]⟩ (.ofJson (.int 1)) none
  have hscopes := (sealing.commitValue_scopes ⟨["a"]⟩ (.ofJson (.int 1)) none).trans hscopes
  rw [sealedRun]
  rw [hstore] at hwritten ⊢
  generalize (sealing.commitValue ⟨["a"]⟩ (.ofJson (.int 1)) none).1 = s at *
  -- The identity is claimed.
  have hname : Username.normalize "abc" = .ok "abc" := by decide
  obtain ⟨hclaimed, hstore, hindex'⟩ := hwritten.claim hsettled hcurrent hticks.fresh
    (by decide : Path.Plain ⟨["me"]⟩) (by rw [hscopes]; decide) hname
  obtain ⟨r', hrecords', -⟩ := s.commitValue_records ⟨["me"]⟩ (.identity "abc") (some .identity)
  have hclock' := s.commitValue_clock ⟨["me"]⟩ (.identity "abc") (some .identity)
  have hstore : s.after (.declareIdentity "me" "abc") = _ := hstore
  have hindex' : (s.after (.declareIdentity "me" "abc")).index = _ := hindex'
  refine ⟨hclaimed, ?_, ?_, ?_, ?_⟩
  · rw [hstore, hclock', hclock]
    exact congrArg (· + 2) htaken
  · rw [hstore, Ledger.length, hrecords', hrecords]
    simpa [Ledger.length] using hlength
  · rw [hindex', Dict.get?_insert_of_ne _ (by decide), hindex]
    exact congrArg Option.isSome (Dict.get?_insert_self _ _ _)
  · rw [hindex']
    exact Dict.get?_insert_self _ _ _

/-- The sealed value keeps its key in a replay, and the identity its value. -/
theorem replay_reproduces_sealed :
    ∃ u, (empty (.ticking 5 1)).replay sealedRun.ledger.records = ⟨u, some (.ok ())⟩ ∧ u.ledger.length = 3 ∧
      u.verify = .ok () ∧ (u.index.get? "a").isSome ∧ u.index.get? "me" = some (.identity "abc") := by
  obtain ⟨hreached, htaken, hlength, ha, hme⟩ := sealedRun_parts
  have hticking : ∀ j < 3, ∀ i < j,
      (Clock.ticking 1000 1).readings (0 + i) < (Clock.ticking 1000 1).readings (0 + j) := by decide
  have hticking' : ∀ j < 3, ∀ i < j,
      (Clock.ticking 5 1).readings (0 + i) < (Clock.ticking 5 1).readings (0 + j) := by decide
  have hclock : (Clock.ticking 1000 1).Increasing (sealedRun.clock.taken - (Clock.ticking 1000 1).taken) := by
    rw [htaken]
    exact fun i j hij hj => hticking j hj i hij
  have hclock' : (empty (.ticking 5 1)).clock.Increasing sealedRun.ledger.length := by
    rw [hlength]
    exact fun i j hij hj => hticking' j hj i hij
  obtain ⟨u, hreplay, hrecords, -, hverify, hkeys, hvalues⟩ := replay_reproduces hreached hclock hclock'
  exact ⟨u, hreplay, hrecords.trans hlength, hverify, (hkeys "a").trans ha,
    hvalues "me" _ hme fun _ => Value.noConfusion⟩

end PathLedger.Store
