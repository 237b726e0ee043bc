import PathLedger.Proofs.Selector.Choices
import PathLedger.Proofs.Store.Bounded
import PathLedger.Proofs.Store.Declarations
import PathLedger.Proofs.Store.Transparency

/-!
# Selecting a child and reading it

A choice, a range or a filter takes a child from the index as it is held there. A read of the child opens what it
finds. So the two agree where the entry of the child is not sealed, and where it is, the selection shows the seal.

* `Store.Leaf` — a child with an entry of its own, in a collection that is in clear and that no pointer redirects.
* `Store.read_leaf` — **a read of such a child opens its entry**.
* `Store.select_leaf` — **a selection of it gives the entry**, which is what a read gives unless the entry is sealed.
* `Store.sealed_selection` — a secret at the root seals entries in place.
-/

namespace PathLedger

open Text

theorem Index.subtree_of_entry {index : Index} {p : Path} {e : Value} (hroot : p.isRoot = false)
    (h : index.entry p = some e) : index.subtree p = some e := by
  rw [subtree, hroot, if_neg Bool.false_ne_true, h]

namespace Store

variable {s : Store} {c : Path} {k : String} {e v : Value}

/-- A child with an entry of its own that reads as something. Its collection is a plain path in clear, and no pointer is
at the collection or above. -/
structure Leaf (s : Store) (c : Path) (k : String) (e v : Value) : Prop where
  plain : c.Plain
  word : isWord k
  below : c.isRoot = false
  clear : s.scopes.hidingScope? c = none
  settled : ∀ n ≤ c.length, s.index.pointerAt? (c.take n) = none
  entry : s.index.entry (c.child k) = some e
  reads : s.read (c.child k).key = some (some v)

namespace Leaf

theorem child_plain (h : Leaf s c k e v) : (c.child k).Plain := h.plain.child h.word

/-- The index shows the entry of the child. -/
theorem subtree (h : Leaf s c k e v) : s.index.subtree (c.child k) = some e :=
  Index.subtree_of_entry (c.isRoot_child k) h.entry

/-- The index has no entries of hidden paths. -/
theorem child_clear (h : Leaf s c k e v) (hs : Reached (fun _ => True) s) :
    s.scopes.hidingScope? (c.child k) = none := by
  have hentry := h.entry
  rw [hs.indexCurrent] at hentry
  have hclear := Index.materialize_not_hidden hentry
  rwa [h.child_plain.ofKey_key] at hclear

/-- **A read of the child opens its entry.** -/
theorem opened (h : Leaf s c k e v) (hs : Reached (fun _ => True) s) : s.view.plain? (c.child k) e = some v := by
  have hread := h.reads
  have hclear := h.child_clear hs
  by_cases hpointer : ∃ target, e = .pointer target
  · -- A pointer exactly at the path is read as itself.
    obtain ⟨target, rfl⟩ := hpointer
    rw [read_key h.child_plain, View.readPlain, show s.view.scopes = s.scopes from rfl, hclear] at hread
    dsimp only at hread
    rw [View.readIndexed, show s.view.index = s.index from rfl, h.entry] at hread
    exact Option.some.inj hread
  · have hstays : ∀ n ≤ (c.child k).length, s.index.pointerAt? ((c.child k).take n) = none := by
      intro n hn
      rcases Nat.lt_or_eq_of_le hn with hlt | rfl
      · rw [Path.length_child] at hlt
        rw [Path.take_child_of_le (Nat.le_of_lt_succ hlt) k]
        exact h.settled n (Nat.le_of_lt_succ hlt)
      · rw [Path.take_length, Index.pointerAt?_eq_none, h.entry]
        exact fun target htarget => hpointer ⟨target, Option.some.inj htarget⟩
    rw [read_clear h.child_plain hclear hstays, h.entry, Option.bind_some] at hread
    exact Option.some.inj hread

/-- An entry that is not sealed is what is read. -/
theorem eq_of_unsealed (h : Leaf s c k e v) (hs : Reached (fun _ => True) s) (hopen : ∀ blob, e ≠ .ciphertext blob) :
    v = e := by
  have hopened := h.opened hs
  cases e with
  | ciphertext blob => exact absurd rfl (hopen blob)
  | _ => exact (Option.some.inj hopened).symm

/-- A choice or a range that has the key gives the entry under it. -/
theorem read_picked (h : Leaf s c k e v) {raw : String} {keys : List String}
    (hpicks : Selector.Picks (Path.parse raw) c keys) (hk : k ∈ keys) :
    ∃ fields, s.read raw = some (some (.object fields)) ∧ Entries.get? k fields = some e := by
  obtain ⟨fields, hread, hfields⟩ := s.view.read_picks hpicks
  refine ⟨fields, hread, ?_⟩
  rw [hfields, if_pos hk]
  exact h.subtree

/-- The key alone gives the entry alone. -/
theorem read_single (h : Leaf s c k e v) : s.read (c.key ++ "[[" ++ k ++ "]]") = some (some (.object [(k, e)])) := by
  have htext : c.key ++ "[[" ++ k ++ "]]" =
      c.key ++ String.ofList (Path.bracketed (Path.bracketed k.toList)) := by
    rw [← String.toList_inj]
    simp [Path.bracketed]
  have hpicks := Selector.picks_single h.plain h.below h.word
  rw [read, htext, s.view.read_eq_gatherObject hpicks]
  exact congrArg (some <$> ·) (Selector.gatherObject_single (congrArg some h.subtree))

/-- A filter that passes the child gives the entry under its key. -/
theorem read_sieved (h : Leaf s c k e v) {raw : String} {filter : Selector.Filter} {found : Value}
    (hsieves : Selector.Sieves (Path.parse raw) c filter) (hread : s.read raw = some (some found)) :
    ∃ fields, found = .object fields ∧ ∀ w, Entries.get? k fields = some w → w = e := by
  obtain ⟨fields, rfl, hfields⟩ := s.view.read_sieves hsieves h.plain h.below hread
  refine ⟨fields, rfl, fun w hw => ?_⟩
  have hshown := hfields k w hw
  rw [show s.view.index = s.index from rfl, h.subtree] at hshown
  exact (Option.some.inj hshown).symm

end Leaf

/-- **What selections give.** A choice, a range and a filter that pick a child with an entry of its own give that entry.
A read of the child opens it, and so gives the same unless the entry is sealed. -/
theorem select_leaf (hs : Reached (fun _ => True) s) (h : Leaf s c k e v) :
    s.view.plain? (c.child k) e = some v ∧ ((∀ blob, e ≠ .ciphertext blob) → v = e) ∧
      s.read (c.key ++ "[[" ++ k ++ "]]") = some (some (.object [(k, e)])) ∧
      (∀ raw keys, Selector.Picks (Path.parse raw) c keys → k ∈ keys →
        ∃ fields, s.read raw = some (some (.object fields)) ∧ Entries.get? k fields = some e) ∧
      ∀ raw filter found, Selector.Sieves (Path.parse raw) c filter → s.read raw = some (some found) →
        ∃ fields, found = .object fields ∧ ∀ w, Entries.get? k fields = some w → w = e :=
  ⟨h.opened hs, h.eq_of_unsealed hs, h.read_single, fun _ _ => h.read_picked, fun _ _ _ => h.read_sieved⟩

/-! ## Entries under a root secret -/

/-- A secret at the root, which may be empty, and a value. -/
def noted (secret : String) : Store :=
  ((empty (.ticking 1000 1)).after (.declareSecret "" secret)).after (.write "c.1" (.ofJson (.bool true)) none)

/-- What the index holds for the value. -/
def noteEntry (secret : String) : Value := (noted secret).storedForm ⟨["c", "1"]⟩ (.ofJson (.bool true)) none

section Noted

variable (secret : String)

theorem noted_reached : Reached (fun _ => True) (noted secret) :=
  ((Reached.start _).call (.declareSecret "" secret) trivial).call (.write "c.1" (.ofJson (.bool true)) none) trivial

/-- A secret at the root hides nothing. -/
theorem hidingScope?_rooted {p : Path} (h : p.Plain) :
    (Scopes.empty.declareSecret .root secret).hidingScope? p = none := by
  rw [Scopes.hidingScope?_eq_none_iff]
  intro n hpos hle
  have hkey : (p.take n).key ≠ Path.key .root := by
    refine Path.key_ne_empty (fun s hs => (h.take n s hs).1) ?_
    rw [Bool.eq_false_iff, Path.isRoot, ne_eq, List.isEmpty_iff, ← List.length_eq_zero_iff]
    have := Path.length_take hle
    rw [Path.length] at this
    omega
  rw [Scopes.liveAt_declareSecret_of_ne hkey]
  rfl

/-- The store before the value is written. -/
theorem rooted_parts : OneSecret ((empty (.ticking 1000 1)).after (.declareSecret "" secret)) .root secret ∧
    Ticks ((empty (.ticking 1000 1)).after (.declareSecret "" secret)) 3 := by
  have hsettled : Settled (empty (.ticking 1000 1)) := fun _ => rfl
  have hticks : Ticks (empty (.ticking 1000 1)) 4 := ticks_empty (increasing_ticking (by decide))
  exact ⟨oneSecret (.ticking 1000 1) "" secret, hticks.declareSecret hsettled "" secret⟩

theorem noted_parts : (noted secret).scopes = Scopes.empty.declareSecret .root secret ∧
    (noted secret).branches = .empty ∧ (noted secret).index = Dict.empty.insert "c.1" (noteEntry secret) ∧
    (noted secret).read "c.1" = some (some (.ofJson (.bool true))) := by
  obtain ⟨hsecret, hticks⟩ := rooted_parts secret
  have hreached : Reached (fun _ => True) ((empty (.ticking 1000 1)).after (.declareSecret "" secret)) :=
    (Reached.start _).call (.declareSecret "" secret) trivial
  have hplain : Path.Plain ⟨["c", "1"]⟩ := by decide
  rw [noteEntry, noted]
  generalize (empty (.ticking 1000 1)).after (.declareSecret "" secret) = s at hsecret hticks hreached
  have hwritten : s.after (.write "c.1" (.ofJson (.bool true)) none) =
      (s.commitValue ⟨["c", "1"]⟩ (.ofJson (.bool true)) none).1 :=
    (write_plain hsecret.settled hplain rfl (by rw [hsecret.operators]; decide) (.ofJson (.bool true))).1
  have hclear : s.scopes.hidingScope? ⟨["c", "1"]⟩ = none := by
    rw [hsecret.scopes]
    exact hidingScope?_rooted secret hplain
  have hscopes := commitValue_scopes s ⟨["c", "1"]⟩ (.ofJson (.bool true)) none
  rw [hwritten]
  refine ⟨hscopes.trans hsecret.scopes, ?_, ?_, ?_⟩
  · rw [commitValue_clear hclear, commit_branches, hsecret.branches]
  · rw [commitValue_index hreached.indexCurrent hticks.fresh hplain.clean hclear, hsecret.index, storedForm, storedForm,
      hscopes]
    rfl
  · refine read_commitValue hreached.indexCurrent hticks.fresh hplain ?_ ?_ (Value.ofJson_ordered _)
      (Value.ofJson_isData _) ?_
    · exact Scopes.hidingScope?_eq_none_iff.mp hclear 2 (by decide) (by decide)
    · intro n _
      rw [hsecret.index]
      rfl
    · rw [SealFits, hclear]
      exact fun _ => by decide

theorem noted_leaf : Leaf (noted secret) ⟨["c"]⟩ "1" (noteEntry secret) (.ofJson (.bool true)) := by
  obtain ⟨hscopes, -, hindex, hread⟩ := noted_parts secret
  refine ⟨by decide, by decide, rfl, ?_, fun n hn => ?_, ?_, hread⟩
  · rw [hscopes]
    exact hidingScope?_rooted secret (by decide)
  · have hkey : (Path.take ⟨["c"]⟩ n).key ≠ "c.1" := by
      have : n = 0 ∨ n = 1 := by
        have : n ≤ 1 := hn
        omega
      rcases this with rfl | rfl <;> decide
    rw [Index.pointerAt?, Index.entry, hindex, Dict.get?_insert_of_ne _ hkey]
    rfl
  · rw [Index.entry, hindex]
    exact Dict.get?_insert_self _ _ _

/-- What a read sees of the store. -/
theorem noted_view : (noted secret).view =
    ⟨Dict.empty.insert "c.1" (noteEntry secret), Scopes.empty.declareSecret .root secret, .empty⟩ := by
  obtain ⟨hscopes, hbranches, hindex, -⟩ := noted_parts secret
  rw [view, hscopes, hbranches, hindex]

end Noted

/-- An empty secret seals nothing. -/
theorem noteEntry_open : noteEntry "" = .ofJson (.bool true) := by
  have hsecret : (Scopes.empty.declareSecret .root "").effectiveSecret ⟨["c", "1"]⟩ = "" := by decide +kernel
  rw [noteEntry, storedForm, (noted_parts "").1, hsecret]
  exact if_pos rfl

/-- A secret with a text seals the entry in place. -/
theorem noteEntry_sealed : ∃ blob, noteEntry "k" = .ciphertext blob := by
  have hsecret : ((Scopes.empty.declareSecret .root "k").effectiveSecret ⟨["c", "1"]⟩).isEmpty = false := by
    have hlive : ((Scopes.empty.declareSecret .root "k").liveSecret? "").isSome := by decide
    simpa using Scopes.effectiveSecret_ne_empty_of_root hlive ⟨["c", "1"]⟩
  rw [noteEntry, storedForm, (noted_parts "k").1, hsecret]
  exact ⟨_, rfl⟩

/-- A key alone, a range and a filter pick a value that is stored in clear. -/
theorem select_leaf_note :
    Reached (fun _ => True) (noted "") ∧
      Leaf (noted "") ⟨["c"]⟩ "1" (.ofJson (.bool true)) (.ofJson (.bool true)) ∧
      (noted "").read "c[[1]]" = some (some (.object [("1", .ofJson (.bool true))])) ∧
      (∃ fields, (noted "").read "c[0..2]" = some (some (.object fields)) ∧
        Entries.get? "1" fields = some (.ofJson (.bool true))) ∧
      ∃ fields, (noted "").read "c[c.1 == true]" = some (some (.object fields)) ∧ (Entries.get? "1" fields).isSome ∧
        ∀ w, Entries.get? "1" fields = some w → w = .ofJson (.bool true) := by
  have hleaf := noted_leaf ""
  rw [noteEntry_open] at hleaf
  obtain ⟨-, -, hsingle, hpicked, hsieved⟩ := select_leaf (noted_reached "") hleaf
  have hpicks : Selector.Picks (Path.parse "c[0..2]") ⟨["c"]⟩ ["0", "1", "2"] :=
    ⟨0, "c", by decide +kernel, by decide +kernel, by decide +kernel⟩
  have hfilter : (noted "").read "c[c.1 == true]" = some (some (.object [("1", .ofJson (.bool true))])) := by
    rw [read, noted_view, noteEntry_open]
    exact View.read_of_readWith _ 2 (by decide +kernel)
  have hsieves : Selector.Sieves (Path.parse "c[c.1 == true]") ⟨["c"]⟩ ⟨⟨"c.1", .eq, "true"⟩, []⟩ := by
    refine ⟨fun found hfound => ?_, by decide +kernel, "c.1 == true", by decide +kernel, by decide +kernel⟩
    have hnone : Selector.firstSegment? (Selector.selectorOf? Selector.Transform.parse?)
        (Path.parse "c[c.1 == true]").segments = none := by decide +kernel
    rw [hnone] at hfound
    cases hfound
  obtain ⟨fields, hfields, hentry⟩ := hsieved _ _ _ hsieves hfilter
  refine ⟨noted_reached "", hleaf, hsingle, hpicked _ _ hpicks (by decide), fields, hfields ▸ hfilter, ?_, hentry⟩
  obtain rfl := Value.object.inj hfields
  rfl

/-- **A selection shows the seal** of a value that a read opens. -/
theorem sealed_selection :
    ∃ s, Reached (fun _ => True) s ∧ ∃ e v, Leaf s ⟨["c"]⟩ "1" e v ∧ s.read "c.1" = some (some v) ∧
      s.read "c[[1]]" ≠ some (some (.object [("1", v)])) := by
  have hleaf := noted_leaf "k"
  obtain ⟨blob, hsealed⟩ := noteEntry_sealed
  refine ⟨_, noted_reached "k", _, _, hleaf, hleaf.reads, fun hsame => ?_⟩
  rw [show "c[[1]]" = Path.key ⟨["c"]⟩ ++ "[[" ++ "1" ++ "]]" from rfl, hleaf.read_single, hsealed] at hsame
  simp [Value.ofJson] at hsame

end Store

end PathLedger
