import PathLedger.Proofs.Store.Reading
import PathLedger.Proofs.Store.Runs

/-!
# What was written is read

A written value is kept in the branch of its hiding scope, sealed in the index, or plain in the index.
Whichever place it went to, the read finds it there.

* `Store.write_plain` — a write at a plain path commits a value.
* `Store.SealFits` — what a write seals can be counted in 64 bits.
* `Store.held_commitValue` — **a committed value is held**, in a branch or in the index.
* `Store.read_commitValue_scope`, `Store.read_commitValue_child` — at a scope with a secret nothing is read,
  and the value is found below the scope.
* `Store.read_write` — **a written value is read back**, in every store that is reached.
-/

namespace PathLedger

theorem Path.Plain.take_key_ne {p : Path} (h : p.Plain) {n : Nat} (hn : n < p.length) :
    (p.take n).key ≠ p.key := by
  intro hkey
  have := congrArg Path.length (key_inj (h.take n).clean h.clean hkey)
  rw [length_take (Nat.le_of_lt hn)] at this
  omega

namespace Store

variable {s : Store} {p scope : Path} {v : Value}

/-! ## Writing at a plain path -/

theorem classify_plain (h : p.Plain) (hroot : p.isRoot = false) {registry : Operator.Registry}
    (hleaf : ∀ leaf, p.last? = some leaf → registry.kindOf? leaf = none) (v : Value) :
    Operator.classify registry p v none = .ok (.set p v) := by
  have hsegments : p.segments ≠ [] := by simpa [Path.isRoot] using hroot
  have hlast : p.last? = some (p.segments.getLast hsegments) := List.getLast?_eq_getLast_of_ne_nil hsegments
  have hplain := (h _ (List.getLast_mem hsegments)).2
  have hdefining : p.segments.getLast hsegments ≠ Operator.definingSymbol := by
    intro heq
    rw [heq] at hplain
    exact absurd (hplain '+' (by decide)) (by decide)
  simp only [Operator.classify, Operator.callPath, bind, Except.bind, hlast, if_neg hdefining,
    hleaf _ hlast, Path.normalize_plain h]
  rfl

/-- A write at a plain path commits a value, and is never refused. -/
theorem write_plain (hsettled : Settled s) (h : p.Plain) (hroot : p.isRoot = false)
    (hleaf : ∀ leaf, p.last? = some leaf → s.operators.kindOf? leaf = none) (v : Value) :
    (s.write p.key v none).store = (s.commitValue p v none).1 ∧
      ∃ r, (s.write p.key v none).result = some (.ok (.committed r)) := by
  rw [write, Path.parse_key h, classify_plain h hroot hleaf, perform, apply, put_of_settled hsettled]
  exact ⟨rfl, _, rfl⟩

/-- The bytes of what a write of a value seals, if it does, can be counted in 64 bits, as the bytes in any
memory can. -/
def SealFits (s : Store) (p : Path) (v : Value) : Prop :=
  match s.scopes.hidingScope? p with
  | some scope => (Wire.encodeValue (.object (s.fieldsWith scope p v))).length < 2 ^ 64
  | none => s.scopes.effectiveSecret p ≠ "" → (Wire.encodeValue v).length < 2 ^ 64

/-! ## Into a branch -/

/-- The branch of the hiding scope opens, after a value has been committed, to the fields with the value. -/
theorem openBranch?_commitValue (hscope : s.scopes.hidingScope? p = some scope) (hv : v.Ordered)
    (hfits : SealFits s p v) (operator : Option Operator.Kind) :
    (s.commitValue p v operator).1.view.openBranch? scope = some (.object (s.fieldsWith scope p v)) := by
  obtain ⟨n, -, -, -, hsecret⟩ := Scopes.hidingScope?_spec hscope
  have hordered : (Value.object (s.fieldsWith scope p v)).Ordered :=
    hv.insertAt _ (branchFields_ordered s scope)
  rw [SealFits, hscope] at hfits
  rw [← openBranch?_sealBranch hsecret hordered (Wire.fits_of_length _ hfits), commitValue_hidden hscope,
    writeBranch_eq hsecret]
  exact openBranch?_congr (by rw [commit_scopes]) (by rw [commit_branches])

theorem branchFields_commitValue (hscope : s.scopes.hidingScope? p = some scope) (hv : v.Ordered)
    (hfits : SealFits s p v) : (s.commitValue p v none).1.branchFields scope = s.fieldsWith scope p v := by
  rw [branchFields, openBranch?_commitValue hscope hv hfits none]
  rfl

/-- A value committed below a scope with a secret is held in its branch. -/
theorem held_commitValue_hidden (hscope : s.scopes.hidingScope? p = some scope)
    (hself : s.scopes.liveAt p = false) (hv : v.Ordered) (hfits : SealFits s p v) :
    (s.commitValue p v none).1.held p = some v := by
  obtain ⟨n, hn, rfl, hlength, -⟩ := Scopes.hidingScope?_above hself hscope
  have hbelow : (p.take n).length < p.length := by omega
  rw [held_hidden (by rw [commitValue_scopes, hscope]), branchFields_commitValue hscope hv hfits,
    fieldsWith, branchNames_below hbelow]
  exact Value.lookupAt_insertAt (Path.drop_ne_nil hbelow) v _

/-- A value committed at a scope with a secret is held below it. -/
theorem held_commitValue_child (hroot : p.isRoot = false) (hself : s.scopes.liveAt p)
    (hchild : s.scopes.liveAt (p.child scopeField) = false) (hv : v.Ordered) (hfits : SealFits s p v) :
    (s.commitValue p v none).1.held (p.child scopeField) = some v := by
  have hscope := Scopes.hidingScope?_self hroot hself
  have hbelow := Scopes.hidingScope?_child hroot hself hchild
  rw [held_hidden (by rw [commitValue_scopes, hbelow]), branchFields_commitValue hscope hv hfits,
    Path.drop_child, fieldsWith, branchNames_self]
  exact Value.lookupAt_insertAt (List.cons_ne_nil _ _) v _

/-! ## Into the index -/

/-- A value committed in clear sets its key, whatever computed it. -/
theorem commitValue_index_of_setsKey (hcurrent : IndexCurrent s) (hfresh : Fresh s) (h : p.Clean)
    (hclear : s.scopes.hidingScope? p = none) (v : Value) {operator : Option Operator.Kind}
    (hsets : Index.setsKey (s.recordOf ⟨p, operator, v, s.storedForm p v operator⟩)) :
    (s.commitValue p v operator).1.index = s.index.insert p.key (s.storedForm p v operator) := by
  have hkey : s.scopes.hidingScope?
      (Path.ofKey (s.recordOf ⟨p, operator, v, s.storedForm p v operator⟩).path) = none := by
    show s.scopes.hidingScope? (Path.ofKey p.key) = none
    rw [Path.ofKey_key h, hclear]
  rw [commitValue_clear hclear, commit_index hfresh, ← hcurrent, Index.absorb_setsKey hsets hkey]
  rfl

theorem commitValue_index (hcurrent : IndexCurrent s) (hfresh : Fresh s) (h : p.Clean)
    (hclear : s.scopes.hidingScope? p = none) (v : Value) :
    (s.commitValue p v none).1.index = s.index.insert p.key (s.storedForm p v none) :=
  commitValue_index_of_setsKey hcurrent hfresh h hclear v rfl

/-- What is stored for plain data opens to it. -/
theorem plain?_storedForm (hv : v.Ordered) (hdata : v.IsData)
    (hsize : s.scopes.effectiveSecret p ≠ "" → (Wire.encodeValue v).length < 2 ^ 64) :
    s.view.plain? p (s.storedForm p v none) = some v := by
  unfold storedForm
  dsimp only
  split
  · cases v with
    | ciphertext blob => exact absurd rfl (hdata.2 blob)
    | _ => rfl
  · rename_i hsealed
    have hsecret : (s.scopes.effectiveSecret p).isEmpty = false := by
      cases hempty : (s.scopes.effectiveSecret p).isEmpty with
      | false => rfl
      | true => simp [hempty] at hsealed
    have hfits := Wire.fits_of_length v (hsize (by simpa using hsecret))
    have hdecrypt := Blob.decrypt?_encrypt hv hfits (s.scopes.effectiveSecret p) p
    rw [Blob.encrypt] at hdecrypt ⊢
    rw [View.plain?, show s.view.scopes = s.scopes from rfl, hsecret, if_neg (by decide)]
    exact hdecrypt

theorem storedForm_ne_pointer (hdata : v.IsData) (p : Path) (target : String) :
    s.storedForm p v none ≠ .pointer target := by
  unfold storedForm
  dsimp only
  split
  · exact hdata.ne_pointer target
  · rw [Blob.encrypt]
    simp

/-- A value committed in clear is held in the index, and opened where it was sealed. -/
theorem held_commitValue_clear (hcurrent : IndexCurrent s) (hfresh : Fresh s) (h : p.Clean)
    (hclear : s.scopes.hidingScope? p = none) (hv : v.Ordered) (hdata : v.IsData)
    (hfits : SealFits s p v) : (s.commitValue p v none).1.held p = some v := by
  have hscopes : (s.commitValue p v none).1.scopes = s.scopes := commitValue_scopes s p v none
  have hplain : (s.commitValue p v none).1.view.plain? p = s.view.plain? p :=
    View.plain?_congr (congrArg (Scopes.effectiveSecret · p) hscopes)
  rw [SealFits, hclear] at hfits
  rw [held_clear (by rw [hscopes, hclear]), commitValue_index hcurrent hfresh h hclear, Index.entry,
    Dict.get?_insert_self, Option.bind_some, hplain, plain?_storedForm hv hdata hfits]

/-- Plain data written in clear leaves no pointer along its path. -/
theorem pointerAt?_commitValue (hcurrent : IndexCurrent s) (hfresh : Fresh s) (h : p.Plain)
    (hclear : s.scopes.hidingScope? p = none)
    (hpointer : ∀ n < p.length, s.index.pointerAt? (p.take n) = none) (hdata : v.IsData) {n : Nat}
    (hn : n ≤ p.length) : (s.commitValue p v none).1.index.pointerAt? (p.take n) = none := by
  have hindex := commitValue_index hcurrent hfresh h.clean hclear v
  rcases Nat.lt_or_eq_of_le hn with hlt | rfl
  · have hother : (s.commitValue p v none).1.index.entry (p.take n) = s.index.entry (p.take n) := by
      rw [hindex, Index.entry, Dict.get?_insert_of_ne _ (h.take_key_ne hlt)]
      rfl
    have := hpointer n hlt
    rwa [Index.pointerAt?, ← hother] at this
  · rw [Path.take_length, Index.pointerAt?_eq_none, hindex, Index.entry, Dict.get?_insert_self]
    intro target htarget
    exact storedForm_ne_pointer hdata p target (Option.some.inj htarget)

/-! ## Reading -/

/-- **A committed value is held**, in the branch of its hiding scope or in the index. -/
theorem held_commitValue (hcurrent : IndexCurrent s) (hfresh : Fresh s) (h : p.Clean)
    (hself : s.scopes.liveAt p = false) (hv : v.Ordered) (hdata : v.IsData) (hfits : SealFits s p v) :
    (s.commitValue p v none).1.held p = some v := by
  cases hscope : s.scopes.hidingScope? p with
  | some scope => exact held_commitValue_hidden hscope hself hv hfits
  | none => exact held_commitValue_clear hcurrent hfresh h hscope hv hdata hfits

theorem read_commitValue (hcurrent : IndexCurrent s) (hfresh : Fresh s) (h : p.Plain)
    (hself : s.scopes.liveAt p = false)
    (hpointer : ∀ n < p.length, s.index.pointerAt? (p.take n) = none) (hv : v.Ordered)
    (hdata : v.IsData) (hfits : SealFits s p v) : (s.commitValue p v none).1.read p.key = some (some v) := by
  have hscopes : (s.commitValue p v none).1.scopes = s.scopes := commitValue_scopes s p v none
  have hheld := held_commitValue hcurrent hfresh h.clean hself hv hdata hfits
  rw [← hheld]
  refine read_eq_held h (by rw [hscopes, hself]) (fun hclear n hn => ?_) fun target htarget => ?_
  · rw [hscopes] at hclear
    exact pointerAt?_commitValue hcurrent hfresh h hclear hpointer hdata hn
  · exact hdata.ne_pointer target (Option.some.inj (hheld.symm.trans htarget))

/-- At a scope with a secret nothing is read. -/
theorem read_commitValue_scope (h : p.Plain) (hroot : p.isRoot = false) (hself : s.scopes.liveAt p)
    (v : Value) : (s.commitValue p v none).1.read p.key = some none := by
  have hentry : (s.commitValue p v none).1.view.branchEntry? p p = none := by
    rw [View.branchEntry?, if_pos rfl]
  have hscope : (s.commitValue p v none).1.scopes.hidingScope? p = some p := by
    rw [commitValue_scopes]
    exact Scopes.hidingScope?_self hroot hself
  rw [read_hidden h hscope (by rw [hentry]; simp), hentry]

/-- A value committed at a scope with a secret is read below it. -/
theorem read_commitValue_child (h : p.Plain) (hroot : p.isRoot = false) (hself : s.scopes.liveAt p)
    (hchild : s.scopes.liveAt (p.child scopeField) = false) (hv : v.Ordered) (hdata : v.IsData)
    (hfits : SealFits s p v) : (s.commitValue p v none).1.read (p.child scopeField).key = some (some v) := by
  have hscopes : (s.commitValue p v none).1.scopes = s.scopes := commitValue_scopes s p v none
  have hheld := held_commitValue_child hroot hself hchild hv hfits
  rw [← hheld]
  refine read_eq_held (h.child (by decide)) (by rw [hscopes, hchild]) (fun hclear => ?_)
    fun target htarget => ?_
  · rw [hscopes, Scopes.hidingScope?_child hroot hself hchild] at hclear
    cases hclear
  · exact hdata.ne_pointer target (Option.some.inj (hheld.symm.trans htarget))

/-! ## In every store -/

/-- **A written value is read back**, wherever it was put. At a scope with a secret nothing is read, and
the value is found below the scope. -/
theorem read_write (hs : Reached (fun _ => True) s) (hsettled : Settled s) (hfresh : Fresh s) (h : p.Plain)
    (hroot : p.isRoot = false) (hleaf : ∀ leaf, p.last? = some leaf → s.operators.kindOf? leaf = none)
    (hpointer : ∀ n < p.length, s.index.pointerAt? (p.take n) = none) (j : Json)
    (hfits : SealFits s p (.ofJson j)) :
    (∃ r, (s.write p.key (.ofJson j) none).result = some (.ok (.committed r))) ∧
    (s.scopes.liveAt p = false → (s.write p.key (.ofJson j) none).store.read p.key = some (some (.ofJson j))) ∧
    (s.scopes.liveAt p = true → (s.write p.key (.ofJson j) none).store.read p.key = some none ∧
      (s.scopes.liveAt (p.child "expression") = false →
        (s.write p.key (.ofJson j) none).store.read (p.child "expression").key = some (some (.ofJson j)))) := by
  obtain ⟨hstore, hresult⟩ := write_plain hsettled h hroot hleaf (.ofJson j)
  have hordered := Value.ofJson_ordered j
  have hdata := Value.ofJson_isData j
  rw [hstore]
  refine ⟨hresult, fun hself => ?_, fun hself => ⟨?_, fun hchild => ?_⟩⟩
  · exact read_commitValue hs.indexCurrent hfresh h hself hpointer hordered hdata hfits
  · exact read_commitValue_scope h hroot hself _
  · exact read_commitValue_child h hroot hself hchild hordered hdata hfits

/-- A value below a scope with a secret, in a store where only that secret has been declared. -/
theorem read_write_wallet :
    ∃ s, Reached (fun _ => True) s ∧ s.scopes.liveAt ⟨["wallet"]⟩ ∧
      (s.write "wallet.balance" (.ofJson (.int 1)) none).store.read "wallet.balance" =
        some (some (.ofJson (.int 1))) := by
  have hstart : Reached (fun _ => True) (empty (.ticking 1000 1)) := .start _
  have hsettled : Settled (empty (.ticking 1000 1)) := fun _ => rfl
  have hdeclared := declareSecret_store hsettled "wallet" "k"
  have hscopes : ((empty (.ticking 1000 1)).declareSecret "wallet" "k").store.scopes =
      Scopes.empty.declareSecret ⟨["wallet"]⟩ "k" := by
    rw [hdeclared]
    rfl
  refine ⟨_, hstart.call (.declareSecret "wallet" "k") trivial, ?_, ?_⟩
  · show ((empty (.ticking 1000 1)).declareSecret "wallet" "k").store.scopes.liveAt _ = true
    rw [hscopes]
    decide
  · have hscope : ((empty (.ticking 1000 1)).declareSecret "wallet" "k").store.scopes.hidingScope?
        ⟨["wallet", "balance"]⟩ = some ⟨["wallet"]⟩ := by
      rw [hscopes]
      decide
    have hfields : ((empty (.ticking 1000 1)).declareSecret "wallet" "k").store.branchFields ⟨["wallet"]⟩ =
        [] :=
      branchFields_of_get?_eq_none (by rw [hdeclared]; rfl)
    have hindex : ((empty (.ticking 1000 1)).declareSecret "wallet" "k").store.index = .empty := by
      have hfresh : Fresh { empty (.ticking 1000 1) with
          scopes := Scopes.empty.declareSecret (Path.canonical "wallet") "k" } :=
        fun r hr => absurd hr List.not_mem_nil
      rw [hdeclared, commitMarker]
      refine (commit_index hfresh _).trans ?_
      exact congrArg (fun index => Index.absorb _ index _) (Index.materialize_nil _)
    have hread := read_write (s := ((empty (.ticking 1000 1)).declareSecret "wallet" "k").store)
      (p := ⟨["wallet", "balance"]⟩) (hstart.call (.declareSecret "wallet" "k") trivial)
      (by rw [hdeclared]; exact hsettled.of_derivations rfl)
      (by
        rw [hdeclared]
        intro r hr
        obtain rfl := List.mem_singleton.mp hr
        decide)
      (by decide) (by decide)
      (by
        rw [hdeclared]
        intro leaf hleaf
        obtain rfl := Option.some.inj hleaf
        decide)
      (by
        intro n _
        rw [hindex]
        rfl)
      (.int 1)
      (by
        rw [SealFits, hscope]
        dsimp only
        rw [fieldsWith, hfields]
        decide)
    refine hread.2.1 ?_
    rw [hscopes]
    decide

end Store

end PathLedger
