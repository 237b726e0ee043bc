import PathLedger.Proofs.Index.Walk
import PathLedger.Proofs.Path.Plain
import PathLedger.Proofs.Store.Commit
import PathLedger.Proofs.Value.Nested

/-!
# Reading plain paths

What a read of a plain path comes to, in a hiding scope and outside of all, and what opening a branch
gives after it has been sealed.

* `Store.read_hidden` — a hidden path reads as its entry in the branch.
* `Store.read_clear` — a path in clear with no pointer along it reads as its opened index entry.
* `Store.openBranch?_sealBranch` — **a sealed branch opens to its fields**.
* `Store.held` — what a store holds for a path, in a branch or in the index.
* `Store.read_eq_held` — **what is held is what is read**.
-/

namespace PathLedger

namespace View

variable (view : View) {p : Path}

theorem readStep_plain (h : p.Plain) (next : Next Option) (budget : Nat) :
    view.readStep next p budget = view.readPlain next p budget := by
  rw [readStep, Selector.readTransform_plain _ _ h, Selector.readSelection_plain _ _ h,
    Path.normalize_plain h, Selector.readFilter_plain _ _ h]
  rfl

/-- A plain path is read in one step. -/
theorem read_plain (h : p.Plain) : view.read p = view.readPlain view.reading p maxHops := by
  rw [read, reading, readStep_plain view h]

end View

/-- Opening an index entry depends on the secret of its path only. -/
theorem View.plain?_congr {view other : View} {p : Path}
    (h : other.scopes.effectiveSecret p = view.scopes.effectiveSecret p) :
    other.plain? p = view.plain? p := by
  funext v
  cases v with
  | ciphertext blob => rw [plain?, plain?, h]
  | _ => rfl

namespace Store

variable {s : Store} {p scope : Path}

theorem read_key (h : p.Plain) : s.read p.key = s.view.readPlain s.view.reading p maxHops := by
  rw [read, Path.parse_key h]
  exact s.view.read_plain h

/-- A hidden path reads as its entry in the branch. -/
theorem read_hidden (h : p.Plain) (hscope : s.scopes.hidingScope? p = some scope)
    (hdata : ∀ target, s.view.branchEntry? scope p ≠ some (.pointer target)) :
    s.read p.key = some (s.view.branchEntry? scope p) := by
  rw [read_key h, View.readPlain, show s.view.scopes = s.scopes from rfl, hscope]
  dsimp only
  rw [View.readHidden]
  split
  · rename_i target hentry
    exact absurd hentry (hdata target)
  · rfl

/-- A path in clear with no pointer along it reads as its opened index entry. -/
theorem read_clear (h : p.Plain) (hclear : s.scopes.hidingScope? p = none)
    (hpointer : ∀ n ≤ p.length, s.index.pointerAt? (p.take n) = none) :
    s.read p.key = some ((s.index.entry p).bind (s.view.plain? p)) := by
  have hself : s.index.pointerAt? p = none := by
    have := hpointer p.length (Nat.le_refl _)
    rwa [Path.take_length] at this
  have hwalk : s.index.walk maxHops p = ⟨p, s.index.entry p, false, maxHops⟩ := by
    rw [maxHops, Index.walk, Index.redirect?_eq_none hpointer]
  rw [read_key h, View.readPlain, show s.view.scopes = s.scopes from rfl, hclear]
  dsimp only
  rw [View.readIndexed]
  split
  · rename_i target hentry
    exact absurd hentry (Index.pointerAt?_eq_none.mp hself target)
  · rw [show s.view.index = s.index from rfl, hwalk]
    cases s.index.entry p with
    | none => simp
    | some v => rfl

/-! ## Branches -/

theorem openBranch?_eq (hsecret : s.scopes.effectiveSecret scope ≠ "") :
    s.view.openBranch? scope =
      (s.branches.get? scope.key).bind fun blob =>
        Blob.decrypt? blob (s.scopes.effectiveSecret scope) scope := by
  rw [View.openBranch?, show s.view.scopes = s.scopes from rfl, if_neg (by simpa using hsecret)]
  rfl

/-- What a branch opens to depends on its seal and on the secret of its scope. -/
theorem openBranch?_congr {t : Store}
    (hsecret : t.scopes.effectiveSecret scope = s.scopes.effectiveSecret scope)
    (hblob : t.branches.get? scope.key = s.branches.get? scope.key) :
    t.view.openBranch? scope = s.view.openBranch? scope := by
  rw [View.openBranch?, View.openBranch?, view, view, hsecret, hblob]

theorem branchFields_congr {t : Store}
    (hsecret : t.scopes.effectiveSecret scope = s.scopes.effectiveSecret scope)
    (hblob : t.branches.get? scope.key = s.branches.get? scope.key) :
    t.branchFields scope = s.branchFields scope := by
  rw [branchFields, branchFields, openBranch?_congr hsecret hblob]

/-- A branch that is not there does not open. -/
theorem openBranch?_of_get?_eq_none (h : s.branches.get? scope.key = none) : s.view.openBranch? scope = none := by
  rw [View.openBranch?, show s.view.branches = s.branches from rfl, h]
  split <;> rfl

/-- Without an effective secret no branch opens. -/
theorem openBranch?_of_effectiveSecret_eq_empty (h : s.scopes.effectiveSecret scope = "") :
    s.view.openBranch? scope = none := by
  rw [View.openBranch?, show s.view.scopes = s.scopes from rfl, h]
  rfl

/-- A branch that does not open has no fields. -/
theorem branchFields_of_openBranch?_eq_none (h : s.view.openBranch? scope = none) : s.branchFields scope = [] := by
  rw [branchFields, h]
  rfl

theorem branchFields_of_get?_eq_none (h : s.branches.get? scope.key = none) : s.branchFields scope = [] :=
  branchFields_of_openBranch?_eq_none (openBranch?_of_get?_eq_none h)

/-- Below a scope, the entry of a path is what the fields of the branch hold for the rest of the path. -/
theorem branchEntry?_eq (h : scope.length < p.length) :
    s.view.branchEntry? scope p =
      Value.lookupAt (p.drop scope.length).segments (.object (s.branchFields scope)) := by
  obtain ⟨name, rest, hnames⟩ := List.exists_cons_of_ne_nil (Path.drop_ne_nil h)
  rw [View.branchEntry?, if_neg (by omega), branchFields, hnames]
  cases s.view.openBranch? scope with
  | none => rfl
  | some v => cases v <;> rfl

/-- **A sealed branch opens to its fields.** -/
theorem openBranch?_sealBranch (hsecret : s.scopes.effectiveSecret scope ≠ "")
    {fields : List (String × Value)} (hordered : (Value.object fields).Ordered) (hfits : (Value.object fields).Fits) :
    (s.sealBranch scope fields).view.openBranch? scope = some (.object fields) := by
  rw [openBranch?_eq (show (s.sealBranch scope fields).scopes.effectiveSecret scope ≠ "" from hsecret), sealBranch]
  dsimp only
  rw [Dict.get?_insert_self, Option.bind_some, Blob.decrypt?_encrypt hordered hfits]

theorem branchFields_sealBranch_of_ne {other : Path} (h : other.key ≠ scope.key)
    (fields : List (String × Value)) :
    (s.sealBranch scope fields).branchFields other = s.branchFields other := by
  refine branchFields_congr rfl ?_
  rw [sealBranch]
  exact Dict.get?_insert_of_ne _ h _

/-- What a branch opens to was sealed in it. -/
theorem exists_of_openBranch? {v : Value} (h : s.view.openBranch? scope = some v) :
    ∃ blob, s.branches.get? scope.key = some blob ∧
      Blob.decrypt? blob (s.scopes.effectiveSecret scope) scope = some v := by
  unfold View.openBranch? at h
  dsimp only at h
  split at h
  · cases h
  · exact Option.bind_eq_some_iff.mp h

/-- The fields of a branch are in order and fit, whatever has been sealed. -/
theorem branchFields_ordered (s : Store) (scope : Path) :
    (Value.object (s.branchFields scope)).Ordered := by
  rw [branchFields]
  cases hopen : s.view.openBranch? scope with
  | none => exact Value.ordered_object_nil
  | some v =>
    obtain ⟨blob, -, hdecrypt⟩ := exists_of_openBranch? hopen
    exact Value.ordered_fieldsOf (Blob.decrypt?_ordered hdecrypt)

theorem branchFields_fit (s : Store) (scope : Path) : (Value.object (s.branchFields scope)).Fits := by
  rw [branchFields]
  cases hopen : s.view.openBranch? scope with
  | none => exact Value.fits_object_nil
  | some v =>
    obtain ⟨blob, -, hdecrypt⟩ := exists_of_openBranch? hopen
    exact Value.fits_fieldsOf (Blob.decrypt?_fits hdecrypt)

/-- The names in a branch under which a path is kept. -/
def branchNames (scope p : Path) : List String :=
  if (p.drop scope.length).segments.isEmpty then [scopeField] else (p.drop scope.length).segments

theorem branchNames_self (p : Path) : branchNames p p = [scopeField] := by
  rw [branchNames, Path.drop, Path.length, List.drop_length]
  rfl

theorem branchNames_below (h : scope.length < p.length) :
    branchNames scope p = (p.drop scope.length).segments := by
  rw [branchNames, List.isEmpty_eq_false_iff.mpr (Path.drop_ne_nil h), if_neg (by decide)]

/-- The fields of a branch with a value put at a path. -/
def fieldsWith (s : Store) (scope p : Path) (v : Value) : List (String × Value) :=
  Value.insertAt (branchNames scope p) v (s.branchFields scope)

theorem writeBranch_eq (hsecret : s.scopes.effectiveSecret scope ≠ "") (p : Path) (v : Value) :
    s.writeBranch scope p v = s.sealBranch scope (s.fieldsWith scope p v) := by
  rw [writeBranch, if_neg (by simpa using hsecret)]
  rfl

/-! ## What a store holds -/

/-- What a store holds for a path: what is kept for it in the branch of its hiding scope, or its opened
index entry. -/
def held (s : Store) (p : Path) : Option Value :=
  match s.scopes.hidingScope? p with
  | some scope => Value.lookupAt (p.drop scope.length).segments (.object (s.branchFields scope))
  | none => (s.index.entry p).bind (s.view.plain? p)

theorem held_hidden (h : s.scopes.hidingScope? p = some scope) :
    s.held p = Value.lookupAt (p.drop scope.length).segments (.object (s.branchFields scope)) := by
  rw [held, h]

theorem held_clear (h : s.scopes.hidingScope? p = none) :
    s.held p = (s.index.entry p).bind (s.view.plain? p) := by
  rw [held, h]

/-- Of a branch, only the fields count. -/
theorem held_congr_hidden {t : Store} (hs : s.scopes.hidingScope? p = some scope)
    (ht : t.scopes.hidingScope? p = some scope)
    (h : t.branchFields scope = s.branchFields scope) : t.held p = s.held p := by
  rw [held_hidden hs, held_hidden ht, h]

theorem held_congr_clear {t : Store} (hs : s.scopes.hidingScope? p = none)
    (ht : t.scopes.hidingScope? p = none) (hentry : t.index.entry p = s.index.entry p)
    (hsecret : t.scopes.effectiveSecret p = s.scopes.effectiveSecret p) : t.held p = s.held p := by
  have hplain : t.view.plain? p = s.view.plain? p := View.plain?_congr hsecret
  rw [held_clear hs, held_clear ht, hentry, hplain]

/-- **What is held is what is read**, for paths that no pointer leads away from. -/
theorem read_eq_held (h : p.Plain) (hself : s.scopes.liveAt p = false)
    (hpointer : s.scopes.hidingScope? p = none → ∀ n ≤ p.length, s.index.pointerAt? (p.take n) = none)
    (hdata : ∀ target, s.held p ≠ some (.pointer target)) : s.read p.key = some (s.held p) := by
  cases hscope : s.scopes.hidingScope? p with
  | none => rw [held_clear hscope, read_clear h hscope (hpointer hscope)]
  | some scope =>
    obtain ⟨n, hn, rfl, hlength, -⟩ := Scopes.hidingScope?_above hself hscope
    have hentry : s.view.branchEntry? (p.take n) p = s.held p := by
      rw [held_hidden hscope, branchEntry?_eq (by omega)]
    rw [← hentry, read_hidden h hscope (by rwa [hentry])]

end Store

end PathLedger
