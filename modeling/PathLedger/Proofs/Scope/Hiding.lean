import Mathlib.Data.List.Basic
import PathLedger.Proofs.Cipher.RoundTrip
import PathLedger.Proofs.Entries
import PathLedger.Proofs.Path.Keys
import PathLedger.Scope.Basic

/-!
# Which scope hides a path

A path is hidden by the deepest scope along it that has a secret, the root not counted.

* `Scopes.deepest` — the deepest place along a path with a property; `hidingScope?_eq` puts the hiding
  scope in its terms.
* `Scopes.hidingScope?_eq_some_iff`, `Scopes.hidingScope?_eq_none_iff` — **when a path is hidden, and by
  what**.
* `Scopes.effectiveSecret_ne_empty` — **a scope with a secret has an effective one**, whatever noises lie
  along its path.
* `Scopes.AgreesAlong` — two rows of declarations that do not differ along a path; they hide and seal it
  alike.
-/

namespace PathLedger.Scopes

/-- The largest number from one to a bound with a property. -/
def deepest (P : Nat → Bool) : Nat → Option Nat
  | 0 => none
  | n + 1 => if P (n + 1) then some (n + 1) else deepest P n

theorem deepest_eq_some_iff {P : Nat → Bool} {bound n : Nat} :
    deepest P bound = some n ↔ 1 ≤ n ∧ n ≤ bound ∧ P n ∧ ∀ m, n < m → m ≤ bound → P m = false := by
  induction bound with
  | zero => simp [deepest]; omega
  | succ bound ih =>
    rw [deepest]
    split
    · rename_i h
      constructor
      · intro hn
        obtain rfl := Option.some.inj hn
        exact ⟨Nat.succ_pos _, Nat.le_refl _, h, fun m _ _ => by omega⟩
      · rintro ⟨-, hle, -, hlast⟩
        by_cases heq : n = bound + 1
        · rw [heq]
        · have := hlast (bound + 1) (by omega) (Nat.le_refl _)
          rw [h] at this
          cases this
    · rename_i h
      rw [ih]
      constructor
      · rintro ⟨hpos, hle, hn, hlast⟩
        refine ⟨hpos, by omega, hn, fun m hlt hm => ?_⟩
        by_cases heq : m = bound + 1
        · rw [heq]
          simpa using h
        · exact hlast m hlt (by omega)
      · rintro ⟨hpos, hle, hn, hlast⟩
        have : n ≠ bound + 1 := by
          rintro rfl
          exact h hn
        exact ⟨hpos, by omega, hn, fun m hlt hm => hlast m hlt (by omega)⟩

theorem deepest_eq_none_iff {P : Nat → Bool} {bound : Nat} :
    deepest P bound = none ↔ ∀ n, 1 ≤ n → n ≤ bound → P n = false := by
  induction bound with
  | zero => simp [deepest]; omega
  | succ bound ih =>
    rw [deepest]
    split
    · rename_i h
      constructor
      · intro hnone
        cases hnone
      · intro hall
        rw [hall (bound + 1) (by omega) (Nat.le_refl _)] at h
        cases h
    · rename_i h
      rw [ih]
      constructor
      · intro hall n hpos hle
        by_cases heq : n = bound + 1
        · rw [heq]
          simpa using h
        · exact hall n hpos (by omega)
      · intro hall n hpos hle
        exact hall n hpos (by omega)

/-- Keeping the last of a row of places with a property is keeping the deepest. -/
theorem foldl_eq_deepest {α : Type} (P : α → Bool) (place : Nat → α) (init : Option α) (bound : Nat) :
    ((List.range' 1 bound).map place).foldl (fun found a => if P a then some a else found) init =
      ((deepest (fun n => P (place n)) bound).map place).or init := by
  induction bound with
  | zero => rfl
  | succ bound ih =>
    rw [List.range'_concat, List.map_append, List.foldl_append, ih, deepest, Nat.one_mul, Nat.add_comm 1]
    simp only [List.map_cons, List.map_nil, List.foldl_cons, List.foldl_nil]
    split <;> rfl

/-- Whether a scope has a secret of its own. -/
def liveAt (s : Scopes) (p : Path) : Bool := (s.liveSecret? p.key).isSome

theorem take_isRoot {p : Path} {n : Nat} (hpos : 1 ≤ n) (hle : n ≤ p.length) :
    (p.take n).isRoot = false := by
  rw [Path.isRoot, Path.take, List.isEmpty_eq_false_iff]
  intro hnil
  have := congrArg List.length hnil
  rw [List.length_take, List.length_nil] at this
  rw [Path.length] at hle
  omega

theorem hidingScope?_eq (s : Scopes) (p : Path) :
    s.hidingScope? p = (deepest (fun n => s.liveAt (p.take n)) p.length).map p.take := by
  have hfold : s.branchScope? p =
      ((deepest (fun n => s.liveAt (p.take n)) p.length).map p.take).or
        ((s.liveSecret? "").map fun _ => Path.root) :=
    foldl_eq_deepest s.liveAt p.take _ p.length
  rw [hidingScope?, hfold]
  cases h : deepest (fun n => s.liveAt (p.take n)) p.length with
  | none =>
    cases s.liveSecret? "" with
    | none => rfl
    | some t => rfl
  | some n =>
    obtain ⟨hpos, hle, -, -⟩ := deepest_eq_some_iff.mp h
    have hroot : (p.take n).isRoot = false := take_isRoot hpos hle
    have hstarts : p.startsWith (p.take n) = true := by
      rw [Path.startsWith, List.isPrefixOf_iff_prefix]
      exact List.take_prefix n p.segments
    simp [hroot, hstarts]

/-- **A path is hidden by the deepest scope along it that has a secret.** -/
theorem hidingScope?_eq_some_iff {s : Scopes} {p scope : Path} :
    s.hidingScope? p = some scope ↔ ∃ n, 1 ≤ n ∧ n ≤ p.length ∧ scope = p.take n ∧ s.liveAt scope ∧
      ∀ m, n < m → m ≤ p.length → s.liveAt (p.take m) = false := by
  rw [hidingScope?_eq, Option.map_eq_some_iff]
  constructor
  · rintro ⟨n, hn, rfl⟩
    obtain ⟨hpos, hle, hlive, hlast⟩ := deepest_eq_some_iff.mp hn
    exact ⟨n, hpos, hle, rfl, hlive, hlast⟩
  · rintro ⟨n, hpos, hle, rfl, hlive, hlast⟩
    exact ⟨n, deepest_eq_some_iff.mpr ⟨hpos, hle, hlive, hlast⟩, rfl⟩

theorem hidingScope?_eq_none_iff {s : Scopes} {p : Path} :
    s.hidingScope? p = none ↔ ∀ n, 1 ≤ n → n ≤ p.length → s.liveAt (p.take n) = false := by
  rw [hidingScope?_eq, Option.map_eq_none_iff, deepest_eq_none_iff]

/-- Which scope hides a path depends on where along it there are secrets. -/
theorem hidingScope?_congr {s t : Scopes} {p : Path}
    (h : ∀ n, 1 ≤ n → n ≤ p.length → s.liveAt (p.take n) = t.liveAt (p.take n)) :
    s.hidingScope? p = t.hidingScope? p := by
  have hdeepest (bound : Nat) (hbound : bound ≤ p.length) :
      deepest (fun n => s.liveAt (p.take n)) bound = deepest (fun n => t.liveAt (p.take n)) bound := by
    induction bound with
    | zero => rfl
    | succ bound ih => rw [deepest, deepest, h _ (Nat.succ_pos _) hbound, ih (by omega)]
  rw [hidingScope?_eq, hidingScope?_eq, hdeepest p.length (Nat.le_refl _)]

/-- A path at or below a scope with a secret is hidden. -/
theorem hidingScope?_isSome_of_prefix {s : Scopes} {p scope : Path} (hroot : scope.isRoot = false)
    (hlive : s.liveAt scope) (h : scope.segments <+: p.segments) : (s.hidingScope? p).isSome := by
  cases hnone : s.hidingScope? p with
  | some _ => rfl
  | none =>
    have htake : p.take scope.length = scope := by
      rw [Path.take, Path.length, ← List.prefix_iff_eq_take.mp h]
    have := hidingScope?_eq_none_iff.mp hnone scope.length (Path.length_pos hroot) h.length_le
    rw [htake, hlive] at this
    cases this

theorem hidingScope?_self {s : Scopes} {p : Path} (hroot : p.isRoot = false) (hlive : s.liveAt p) :
    s.hidingScope? p = some p := by
  refine hidingScope?_eq_some_iff.mpr ⟨p.length, Path.length_pos hroot, Nat.le_refl _, ?_, hlive,
    fun m _ _ => by omega⟩
  rw [Path.take_length]

/-- A scope with a secret hides the paths one segment below it that have none. -/
theorem hidingScope?_child {s : Scopes} {p : Path} (hroot : p.isRoot = false) (hlive : s.liveAt p)
    {name : String} (hchild : s.liveAt (p.child name) = false) :
    s.hidingScope? (p.child name) = some p := by
  have hlength := Path.length_child p name
  refine hidingScope?_eq_some_iff.mpr ⟨p.length, Path.length_pos hroot, by omega,
    (Path.take_child p name).symm, hlive, fun m hlt hle => ?_⟩
  obtain rfl : m = (p.child name).length := by omega
  rw [Path.take_length, hchild]

/-! ## Effective secrets -/

theorem mem_ancestors {p a : Path} : a ∈ p.ancestors ↔ ∃ n, 1 ≤ n ∧ n ≤ p.length ∧ p.take n = a := by
  rw [Path.ancestors, List.mem_map]
  constructor
  · rintro ⟨n, hn, rfl⟩
    obtain ⟨hpos, hlt⟩ := List.mem_range'_1.mp hn
    exact ⟨n, hpos, by omega, rfl⟩
  · rintro ⟨n, hpos, hle, rfl⟩
    exact ⟨n, List.mem_range'_1.mpr ⟨hpos, by omega⟩, rfl⟩

/-- The path itself is the deepest of its ancestors. -/
theorem ancestors_eq {p : Path} (hroot : p.isRoot = false) :
    ∃ above, p.ancestors = above ++ [p] := by
  have hpos : p.segments.length ≠ 0 := by simpa [Path.isRoot] using hroot
  obtain ⟨k, hk⟩ := Nat.exists_eq_succ_of_ne_zero hpos
  refine ⟨(List.range' 1 k).map p.take, ?_⟩
  have htake : p.take (1 + k) = p := by
    rw [Path.take, List.take_of_length_le (by omega)]
  rw [Path.ancestors, Path.length, hk, List.range'_concat, List.map_append, Nat.one_mul]
  simp only [List.map_cons, List.map_nil, htake]

/-- A noise over a path was declared at the root or at one of the ancestors of the path. -/
theorem noiseOver?_above {s : Scopes} {p : Path} {n : String × String} (h : s.noiseOver? p = some n) :
    n.1 = "" ∨ ∃ a ∈ p.ancestors, n.1 = a.key := by
  let Above (found : Option (String × String)) : Prop :=
    ∀ n, found = some n → n.1 = "" ∨ ∃ a ∈ p.ancestors, n.1 = a.key
  refine List.foldlRecOn (motive := Above) p.ancestors _ (fun n hn => ?_) (fun found ih a ha n hn => ?_) n h
  · obtain ⟨text, -, rfl⟩ := Option.map_eq_some_iff.mp hn
    exact .inl rfl
  · split at hn
    · obtain rfl := Option.some.inj hn
      exact .inr ⟨a, ha, rfl⟩
    · exact ih n hn

theorem noiseOver?_covers {s : Scopes} {p : Path} :
    (s.noiseOver? p).all (fun n => Path.atOrUnder p.key n.1) = true := by
  cases h : s.noiseOver? p with
  | none => rfl
  | some n =>
    rw [Option.all_some]
    rcases noiseOver?_above h with hempty | ⟨a, ha, hkey⟩
    · rw [hempty]
      rfl
    · obtain ⟨k, hpos, hle, rfl⟩ := mem_ancestors.mp ha
      rw [hkey]
      exact Path.atOrUnder_of_prefix (take_isRoot hpos hle) (List.take_prefix k p.segments)

theorem digestText_ne {text other : String} (h : other.length ≠ 64) : digestText text ≠ other := by
  rintro rfl
  exact h (length_digestText text)

theorem chain_ne_rootSeed (seed secret : String) : chain seed secret ≠ rootSeed := digestText_ne (by decide)

theorem chain_ne_empty (seed secret : String) : chain seed secret ≠ "" := digestText_ne (by decide)

/-- **A scope with a secret has an effective one.** -/
theorem effectiveSecret_ne_empty {s : Scopes} {p : Path} (hroot : p.isRoot = false) (hlive : s.liveAt p) :
    s.effectiveSecret p ≠ "" := by
  obtain ⟨above, habove⟩ := ancestors_eq hroot
  obtain ⟨secret, hsecret⟩ := Option.isSome_iff_exists.mp hlive
  rw [effectiveSecret, habove]
  simp only [List.foldl_append, List.foldl_cons, List.foldl_nil, hsecret, noiseOver?_covers, if_true]
  rw [if_neg (chain_ne_rootSeed _ _)]
  exact chain_ne_empty _ _

/-- Under a secret at the root **every path has an effective one**. -/
theorem effectiveSecret_ne_empty_of_root {s : Scopes} (hlive : (s.liveSecret? "").isSome) (p : Path) :
    s.effectiveSecret p ≠ "" := by
  obtain ⟨secret, hsecret⟩ := Option.isSome_iff_exists.mp hlive
  have hseed (noise : Option (String × String)) : s.seedOf noise ≠ rootSeed ∧ s.seedOf noise ≠ "" := by
    unfold seedOf
    split
    · exact ⟨digestText_ne (by decide), digestText_ne (by decide)⟩
    · rw [hsecret]
      exact ⟨chain_ne_rootSeed _ _, chain_ne_empty _ _⟩
  unfold effectiveSecret
  dsimp only
  generalize hfold : p.ancestors.foldl _ _ = seed
  have hkept : seed ≠ rootSeed ∧ seed ≠ "" := by
    rw [← hfold]
    refine List.foldlRecOn (motive := fun seed => seed ≠ rootSeed ∧ seed ≠ "") p.ancestors _ (hseed _)
      fun seed hkept a _ => ?_
    split
    · exact hkept
    · split
      · exact ⟨chain_ne_rootSeed _ _, chain_ne_empty _ _⟩
      · exact hkept
  rw [if_neg hkept.1]
  exact hkept.2
/-- A hiding scope lies along the path and has an effective secret. -/
theorem hidingScope?_spec {s : Scopes} {p scope : Path} (h : s.hidingScope? p = some scope) :
    ∃ n, n ≤ p.length ∧ scope = p.take n ∧ scope.length = n ∧ s.effectiveSecret scope ≠ "" := by
  obtain ⟨n, hpos, hle, rfl, hlive, -⟩ := hidingScope?_eq_some_iff.mp h
  exact ⟨n, hle, rfl, Path.length_take hle, effectiveSecret_ne_empty (take_isRoot hpos hle) hlive⟩

/-- The scope that hides a path without a secret of its own lies strictly above it. -/
theorem hidingScope?_above {s : Scopes} {p scope : Path} (hself : s.liveAt p = false)
    (h : s.hidingScope? p = some scope) :
    ∃ n, n < p.length ∧ scope = p.take n ∧ scope.length = n ∧ s.effectiveSecret scope ≠ "" := by
  obtain ⟨n, hle, rfl, hlength, hsecret⟩ := hidingScope?_spec h
  refine ⟨n, Nat.lt_of_le_of_ne hle ?_, rfl, hlength, hsecret⟩
  rintro rfl
  obtain ⟨m, -, -, htake, hlive, -⟩ := hidingScope?_eq_some_iff.mp h
  rw [Path.take_length, hself] at hlive
  cases hlive

/-! ## Declarations that agree along a path -/

/-- Two rows of declarations that do not differ at the root or anywhere along a path. -/
def AgreesAlong (s t : Scopes) (p : Path) : Prop :=
  ∀ n ≤ p.length, s.secrets.get? (p.take n).key = t.secrets.get? (p.take n).key ∧
    s.noises.get? (p.take n).key = t.noises.get? (p.take n).key

theorem AgreesAlong.take {s t : Scopes} {p : Path} (h : AgreesAlong s t p) (k : Nat) :
    AgreesAlong s t (p.take k) := by
  intro n hn
  have hlength : (p.take k).length = min k p.length := List.length_take
  have htake : (p.take k).take n = p.take n := by
    rw [Path.take, Path.take, List.take_take, Path.take, Nat.min_eq_left (by omega)]
  rw [htake]
  exact h n (by omega)

theorem AgreesAlong.liveAt {s t : Scopes} {p : Path} (h : AgreesAlong s t p) {n : Nat} (hn : n ≤ p.length) :
    s.liveAt (p.take n) = t.liveAt (p.take n) := by
  rw [Scopes.liveAt, Scopes.liveAt, liveSecret?, liveSecret?, (h n hn).1]

theorem AgreesAlong.hidingScope? {s t : Scopes} {p : Path} (h : AgreesAlong s t p) :
    s.hidingScope? p = t.hidingScope? p := hidingScope?_congr fun _ _ hle => h.liveAt hle

theorem AgreesAlong.at_root {s t : Scopes} {p : Path} (h : AgreesAlong s t p) :
    s.secrets.get? "" = t.secrets.get? "" ∧ s.noises.get? "" = t.noises.get? "" := h 0 (Nat.zero_le _)

theorem AgreesAlong.at_ancestor {s t : Scopes} {p a : Path} (h : AgreesAlong s t p) (ha : a ∈ p.ancestors) :
    s.secrets.get? a.key = t.secrets.get? a.key ∧ s.noises.get? a.key = t.noises.get? a.key := by
  obtain ⟨n, -, hle, rfl⟩ := mem_ancestors.mp ha
  exact h n hle

theorem AgreesAlong.noiseOver? {s t : Scopes} {p : Path} (h : AgreesAlong s t p) :
    s.noiseOver? p = t.noiseOver? p := by
  rw [Scopes.noiseOver?, Scopes.noiseOver?, h.at_root.2]
  refine List.foldl_ext _ _ _ fun found a ha => ?_
  rw [(h.at_ancestor ha).2]

/-- Declarations that agree along a path seal it alike. -/
theorem AgreesAlong.effectiveSecret {s t : Scopes} {p : Path} (h : AgreesAlong s t p) :
    s.effectiveSecret p = t.effectiveSecret p := by
  have hseed (noise : Option (String × String)) : s.seedOf noise = t.seedOf noise := by
    rw [seedOf, seedOf, liveSecret?, liveSecret?, h.at_root.1]
  rw [Scopes.effectiveSecret, Scopes.effectiveSecret, h.noiseOver?, hseed]
  refine congrArg (fun seed => if seed = rootSeed then "" else seed) ?_
  refine List.foldl_ext _ _ _ fun seed a ha => ?_
  rw [liveSecret?, liveSecret?, (h.at_ancestor ha).1]

/-! ## Declarations taken back -/

theorem get?_filter_atOrUnder (d : Dict String String) (target : Path) (key : String) :
    (d.filter fun k _ => !Path.atOrUnder k target.key).get? key =
      if Path.atOrUnder key target.key then none else d.get? key := by
  rw [Dict.get?_filter _ fun k => !Path.atOrUnder k target.key]
  cases Path.atOrUnder key target.key <;> rfl

theorem secrets_purgeUnder (s : Scopes) (target : Path) (key : String) :
    (s.purgeUnder target).secrets.get? key =
      if Path.atOrUnder key target.key then none else s.secrets.get? key :=
  get?_filter_atOrUnder s.secrets target key

theorem noises_purgeUnder (s : Scopes) (target : Path) (key : String) :
    (s.purgeUnder target).noises.get? key =
      if Path.atOrUnder key target.key then none else s.noises.get? key :=
  get?_filter_atOrUnder s.noises target key

theorem liveAt_purgeUnder (s : Scopes) (target p : Path) :
    (s.purgeUnder target).liveAt p = (!Path.atOrUnder p.key target.key && s.liveAt p) := by
  rw [liveAt, liveSecret?, secrets_purgeUnder]
  cases Path.atOrUnder p.key target.key <;> rfl

/-- Taking back what is at or below one path changes nothing along a path that does not lie there. -/
theorem purgeUnder_agreesAlong (s : Scopes) {target p : Path} (htarget : target.Clean)
    (hroot : target.isRoot = false) (hp : p.Clean) (h : ¬target.segments <+: p.segments) :
    AgreesAlong (s.purgeUnder target) s p := by
  intro n _
  have hkept : Path.atOrUnder (p.take n).key target.key = false := by
    rw [Bool.eq_false_iff]
    refine mt (Path.atOrUnder_key htarget (hp.take n) hroot).mp fun hstarts => h ?_
    exact hstarts.trans (List.take_prefix n p.segments)
  rw [secrets_purgeUnder, noises_purgeUnder, hkept]
  exact ⟨rfl, rfl⟩

end PathLedger.Scopes
