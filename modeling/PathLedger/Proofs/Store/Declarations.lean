import PathLedger.Proofs.Index.Uncovered
import PathLedger.Proofs.Store.ReadBack

/-!
# What a declaration changes in the index

The index is made anew under every declaration, from records that keep hidden values in plain form. So a
declaration may hide what was shown, and one that takes a secret back shows what the secret hid.

* `Store.declareSecret_index`, `Store.declareNoise_index` — the index after a declaration.
* `Store.declaration_shows` — **a noise changes nothing, and a secret shows only what was hidden by its own
  scope**, and that only when its text is empty.
* `Store.empty_secret_shows` — three calls after which a hidden value is shown.
-/

namespace PathLedger

namespace Scopes

variable {s : Scopes} {scope p : Path}

theorem liveAt_declareSecret_of_ne (h : p.key ≠ scope.key) (secret : String) :
    (s.declareSecret scope secret).liveAt p = s.liveAt p := by
  rw [liveAt, liveSecret?, declareSecret, Dict.get?_insert_of_ne _ h]
  rfl

theorem liveAt_declareSecret_of_eq (h : p.key = scope.key) (secret : String) :
    (s.declareSecret scope secret).liveAt p = (secret != "") := by
  rw [liveAt, liveSecret?, declareSecret, h, Dict.get?_insert_self]
  by_cases hempty : secret = "" <;> simp [Option.filter, hempty]

/-- A secret with a text takes no scope its secret. -/
theorem liveAt_declareSecret {secret : String} (hne : secret ≠ "") (h : s.liveAt p) :
    (s.declareSecret scope secret).liveAt p := by
  by_cases hkey : p.key = scope.key
  · rw [liveAt_declareSecret_of_eq hkey]
    simpa using hne
  · rw [liveAt_declareSecret_of_ne hkey, h]

/-- Noises hide nothing. -/
theorem hidingScope?_declareNoise (s : Scopes) (scope : Path) (noise : String) (p : Path) :
    (s.declareNoise scope noise).hidingScope? p = s.hidingScope? p := hidingScope?_congr fun _ _ _ => rfl

/-- A path that a secret uncovers was hidden by the scope of that secret, and the secret is empty. -/
theorem uncovered_by_declareSecret {secret : String} {top : Path} (htop : s.hidingScope? p = some top)
    (hclear : (s.declareSecret scope secret).hidingScope? p = none) : secret = "" ∧ top.key = scope.key := by
  obtain ⟨n, hpos, hle, rfl, hlive, -⟩ := hidingScope?_eq_some_iff.mp htop
  have hlost := hidingScope?_eq_none_iff.mp hclear n hpos hle
  constructor
  · by_contra hne
    rw [liveAt_declareSecret hne hlive] at hlost
    cases hlost
  · by_contra hne
    rw [liveAt_declareSecret_of_ne hne, hlive] at hlost
    cases hlost

end Scopes

namespace Store

variable {s : Store} {key : String} {v : Value}

/-- The index after a declaration is that of the records before it. -/
theorem commitMarker_index (s : Store) (scope : Path) {kind : Operator.Kind}
    (hkind : kind = .secret ∨ kind = .noise) (marker : Value) :
    (s.commitMarker scope kind marker).1.index = Index.materialize s.ledger.records s.scopes := by
  refine Index.materialize_append_declaration (r := s.recordOf ⟨scope, some kind, marker, marker⟩) ?_ _ _
  rcases hkind with rfl | rfl <;> rfl

theorem declareSecret_index (h : Settled s) (raw secret : String) :
    (s.declareSecret raw secret).store.index =
      Index.materialize s.ledger.records (s.scopes.declareSecret (Path.canonical raw) secret) := by
  rw [declareSecret_store h, commitMarker_index _ _ (.inl rfl)]

theorem declareNoise_index (h : Settled s) (hcurrent : IndexCurrent s) (raw noise : String) :
    (s.declareNoise raw noise).store.index = s.index := by
  rw [declareNoise_store h, commitMarker_index _ _ (.inr rfl), hcurrent]
  exact Index.materialize_congr fun _ _ _ => Scopes.hidingScope?_declareNoise _ _ _ _

/-! ## The first declaration -/

/-- A new store in which one secret has been declared. -/
structure OneSecret (s : Store) (scope : Path) (secret : String) : Prop where
  settled : Settled s
  operators : s.operators = .initial
  scopes : s.scopes = Scopes.empty.declareSecret scope secret
  branches : s.branches = .empty
  index : s.index = .empty
  records : ∃ r, s.ledger.records = [r] ∧ r.operator = some .secret

theorem oneSecret (clock : Clock) (raw secret : String) :
    OneSecret ((empty clock).declareSecret raw secret).store (Path.canonical raw) secret := by
  have hsettled : Settled (empty clock) := fun _ => rfl
  have hindex := declareSecret_index hsettled raw secret
  have hstore := declareSecret_store hsettled raw secret
  constructor
  · rw [hstore]
    exact hsettled.of_derivations rfl
  · rw [hstore]
    rfl
  · rw [hstore]
    rfl
  · rw [hstore]
    rfl
  · rw [hindex]
    exact Index.materialize_nil _
  · rw [hstore]
    exact ⟨_, rfl, rfl⟩

section Sheltered

variable (clock : Clock)

/-- A secret at a scope and a value below it, in a new store. -/
def sheltered : Store :=
  ((empty clock).after (.declareSecret "wallet" "k")).after (.write "wallet.balance" (.ofJson (.int 1)) none)

theorem sheltered_reached : Reached (fun c => c.isLocal = true) (sheltered clock) := by
  have hstart : Reached (fun c => c.isLocal = true) (empty clock) := .start clock
  exact (hstart.call (.declareSecret "wallet" "k") rfl).call (.write "wallet.balance" _ none) rfl

theorem sheltered_eq :
    sheltered clock = (((empty clock).after (.declareSecret "wallet" "k")).commitValue ⟨["wallet", "balance"]⟩
      (.ofJson (.int 1)) none).1 := by
  have hdeclared := oneSecret clock "wallet" "k"
  exact (write_plain hdeclared.settled (p := ⟨["wallet", "balance"]⟩) (by decide) (by decide)
    (by rw [hdeclared.operators]; decide) (.ofJson (.int 1))).1

theorem sheltered_parts :
    Settled (sheltered clock) ∧
    (sheltered clock).scopes = Scopes.empty.declareSecret ⟨["wallet"]⟩ "k" ∧
    ((sheltered clock).branches.get? "wallet").isSome ∧
    ∃ r r', (sheltered clock).ledger.records = [r, r'] ∧ r.operator = some .secret ∧
      r'.operator = none ∧ r'.path = "wallet.balance" ∧ r'.value = .ofJson (.int 1) := by
  have hdeclared : OneSecret ((empty clock).after (.declareSecret "wallet" "k")) ⟨["wallet"]⟩ "k" :=
    oneSecret clock "wallet" "k"
  have hsheltered := sheltered_eq clock
  generalize (empty clock).after (.declareSecret "wallet" "k") = s at hdeclared hsheltered
  have hscope : s.scopes.hidingScope? ⟨["wallet", "balance"]⟩ = some ⟨["wallet"]⟩ := by
    rw [hdeclared.scopes]
    decide
  have hsecret : s.scopes.effectiveSecret ⟨["wallet"]⟩ ≠ "" :=
    Scopes.effectiveSecret_ne_empty (by decide) (by rw [hdeclared.scopes]; decide)
  rw [hsheltered]
  refine ⟨hdeclared.settled.of_derivations (commitValue_derivations _ _ _ _), ?_, ?_, ?_⟩
  · rw [commitValue_scopes, hdeclared.scopes]
  · rw [commitValue_hidden hscope, commit_branches, writeBranch_eq hsecret]
    exact Option.isSome_of_eq_some (Dict.get?_insert_self _ _ _)
  · obtain ⟨r, hr, hoperator⟩ := hdeclared.records
    rw [commitValue_hidden hscope, commit_records, (frame_writeBranch _ _ _ _).ledger, hr]
    exact ⟨r, _, rfl, hoperator, rfl, rfl, rfl⟩

end Sheltered

/-! ## What a declaration shows -/

/-- **What a declaration shows.** A noise leaves the index as it is. An entry that a secret adds was hidden
by the scope of that very secret, and the text of the secret is empty. -/
theorem declaration_shows (hs : Reached (fun _ => True) s) (hsettled : Settled s) (raw text : String) :
    (s.declareNoise raw text).store.index = s.index ∧
    ∀ key v, (s.declareSecret raw text).store.index.get? key = some v →
      s.index.get? key = some v ∨
        text = "" ∧ ∃ top, s.scopes.hidingScope? (Path.ofKey key) = some top ∧
          top.key = (Path.canonical raw).key := by
  refine ⟨declareNoise_index hsettled hs.indexCurrent raw text, fun key v hafter => ?_⟩
  have hclear : (s.scopes.declareSecret (Path.canonical raw) text).hidingScope? (Path.ofKey key) = none := by
    rw [declareSecret_index hsettled] at hafter
    exact Index.materialize_not_hidden hafter
  rw [declareSecret_index hsettled, Index.get?_materialize, hclear] at hafter
  cases htop : s.scopes.hidingScope? (Path.ofKey key) with
  | none =>
    rw [hs.indexCurrent, Index.get?_materialize, htop]
    exact .inl hafter
  | some top =>
    obtain ⟨hempty, hkey⟩ := Scopes.uncovered_by_declareSecret htop hclear
    exact .inr ⟨hempty, top, rfl, hkey⟩

/-- A secret declared anew with another text, in a store where it hides a value. -/
theorem declaration_shows_wallet :
    Reached (fun _ => True) (sheltered default) ∧ Settled (sheltered default) ∧
      (sheltered default).scopes.liveAt ⟨["wallet"]⟩ ∧ ((sheltered default).branches.get? "wallet").isSome ∧
      ((sheltered default).declareNoise "wallet" "new").store.index = (sheltered default).index ∧
      ∀ key v, ((sheltered default).declareSecret "wallet" "new").store.index.get? key = some v →
        (sheltered default).index.get? key = some v := by
  obtain ⟨hsettled, hscopes, hbranch, -⟩ := sheltered_parts default
  have hreached : Reached (fun _ => True) (sheltered default) := (sheltered_reached default).mono fun _ _ => trivial
  obtain ⟨hnoise, hsecret⟩ := declaration_shows hreached hsettled "wallet" "new"
  refine ⟨hreached, hsettled, ?_, hbranch, hnoise, fun key v hafter => ?_⟩
  · rw [hscopes]
    decide
  · rcases hsecret key v hafter with h | ⟨h, -⟩
    · exact h
    · exact absurd h (by decide)

/-- **A secret taken back by the empty text** shows what it hid, and leaves it in the branch as well. -/
theorem empty_secret_shows :
    ∃ s, Reached (fun c => c.isLocal = true) s ∧ Settled s ∧ s.index.get? "wallet.balance" = none ∧
      (s.declareSecret "wallet" "").store.index.get? "wallet.balance" = some (.ofJson (.int 1)) ∧
      ((s.declareSecret "wallet" "").store.branches.get? "wallet").isSome := by
  obtain ⟨hsettled, hscopes, hbranch, r, r', hrecords, hr, hr', hpath, hvalue⟩ := sheltered_parts default
  refine ⟨_, sheltered_reached default, hsettled, ?_, ?_, ?_⟩
  · rw [(sheltered_reached default).indexCurrent, Index.get?_materialize, hscopes]
    exact if_pos (by decide)
  · have hclear : ((sheltered default).scopes.declareSecret (Path.canonical "wallet") "").hidingScope?
        (Path.ofKey r'.path) = none := by
      rw [hscopes, hpath]
      decide
    have hmem : r' ∈ (sheltered default).ledger.records := by simp [hrecords]
    have hkey := Index.materialize_get?_of_mem hmem (by simp [hrecords, hr, hr'])
      (by rw [Index.setsKey, hr']) hclear
    obtain ⟨v, hv⟩ := Option.isSome_iff_exists.mp hkey
    obtain ⟨a, ha, hsets, -, -, rfl⟩ := Index.exists_of_materialize_get? hv
    rw [hrecords] at ha
    rw [declareSecret_index hsettled, ← hpath, hv, ← hvalue]
    rcases List.mem_pair.mp ha with rfl | rfl
    · rw [Index.setsKey, hr] at hsets
      cases hsets
    · rfl
  · rw [declareSecret_store hsettled]
    exact hbranch

end Store

end PathLedger
