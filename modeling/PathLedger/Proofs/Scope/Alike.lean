import PathLedger.Proofs.Scope.Hiding

/-!
# Declarations that are alike

What is hidden and what is sealed depends on the scopes of the declarations and on which of their texts are empty, but
not on what the other texts say.

* `Scopes.Alike` — two rows of declarations at the same scopes, with empty texts at the same ones.
* `Scopes.Alike.hidingScope?` — **they hide the same paths**.
* `Scopes.Alike.effectiveSecret_isEmpty` — **they seal the same paths**.
* `Scopes.Alike.declareSecret`, `Scopes.Alike.declareNoise`, `Scopes.Alike.purgeUnder` — what keeps them alike.
-/

namespace PathLedger.Scopes

/-- Two rows of declarations at the same scopes, with empty texts at the same ones. -/
structure Alike (s t : Scopes) : Prop where
  secrets : ∀ key, (s.secrets.get? key).map String.isEmpty = (t.secrets.get? key).map String.isEmpty
  noises : ∀ key, (s.noises.get? key).map String.isEmpty = (t.noises.get? key).map String.isEmpty

/-- Two seeds that are both that of the root, or both chained to something. -/
def SameSeed (a b : String) : Prop :=
  a = rootSeed ∧ b = rootSeed ∨ (a ≠ rootSeed ∧ a ≠ "") ∧ b ≠ rootSeed ∧ b ≠ ""

theorem sameSeed_digestText (a b : String) : SameSeed (digestText a) (digestText b) :=
  .inr ⟨⟨digestText_ne (by decide), digestText_ne (by decide)⟩, digestText_ne (by decide), digestText_ne (by decide)⟩

namespace Alike

variable {s t : Scopes}

theorem refl (s : Scopes) : Alike s s := ⟨fun _ => rfl, fun _ => rfl⟩

/-! ## What keeps declarations alike -/

theorem declareSecret (h : Alike s t) (scope : Path) {a b : String} (hempty : a.isEmpty = b.isEmpty) :
    Alike (s.declareSecret scope a) (t.declareSecret scope b) := by
  refine ⟨fun key => ?_, h.noises⟩
  rw [Scopes.declareSecret, Scopes.declareSecret, Dict.get?_insert, Dict.get?_insert]
  split
  · exact congrArg some hempty
  · exact h.secrets key

theorem declareNoise (h : Alike s t) (scope : Path) {a b : String} (hempty : a.isEmpty = b.isEmpty) :
    Alike (s.declareNoise scope a) (t.declareNoise scope b) := by
  refine ⟨h.secrets, fun key => ?_⟩
  rw [Scopes.declareNoise, Scopes.declareNoise, Dict.get?_insert, Dict.get?_insert]
  split
  · exact congrArg some hempty
  · exact h.noises key

theorem purgeUnder (h : Alike s t) (p : Path) : Alike (s.purgeUnder p) (t.purgeUnder p) := by
  constructor <;> intro key
  · rw [secrets_purgeUnder, secrets_purgeUnder]
    split
    · rfl
    · exact h.secrets key
  · rw [noises_purgeUnder, noises_purgeUnder]
    split
    · rfl
    · exact h.noises key

/-! ## What is hidden -/

theorem liveSecret?_isSome (h : Alike s t) (key : String) :
    (s.liveSecret? key).isSome = (t.liveSecret? key).isSome := by
  have hlive (text : Option String) :
      (text.filter fun t => !t.isEmpty).isSome = (text.map String.isEmpty == some false) := by
    cases text with
    | none => rfl
    | some a =>
      rw [Option.filter_some, Option.map_some]
      cases a.isEmpty <;> rfl
  rw [liveSecret?, liveSecret?, hlive, hlive, h.secrets]

theorem liveSecret?_none_or_some (h : Alike s t) (key : String) :
    s.liveSecret? key = none ∧ t.liveSecret? key = none ∨
      ∃ a b, s.liveSecret? key = some a ∧ t.liveSecret? key = some b := by
  have hlive := h.liveSecret?_isSome key
  cases hs : s.liveSecret? key with
  | none =>
    rw [hs] at hlive
    exact .inl ⟨rfl, Option.isNone_iff_eq_none.mp (by rw [← Option.not_isSome, ← hlive]; rfl)⟩
  | some a =>
    rw [hs] at hlive
    obtain ⟨b, hb⟩ := Option.isSome_iff_exists.mp hlive.symm
    exact .inr ⟨a, b, rfl, hb⟩

/-- **Declarations that are alike hide the same paths.** -/
theorem hidingScope? (h : Alike s t) (p : Path) : s.hidingScope? p = t.hidingScope? p :=
  hidingScope?_congr fun _ _ _ => h.liveSecret?_isSome _

/-! ## What is sealed -/

/-- What counts of a noise: its key, and whether its text is empty. -/
def shape (n : String × String) : String × Bool := (n.1, n.2.isEmpty)

theorem noiseOver? (h : Alike s t) (p : Path) : (s.noiseOver? p).map shape = (t.noiseOver? p).map shape := by
  have hmap (key : String) (found : Option String) :
      (found.map fun text => (key, text)).map shape = (found.map String.isEmpty).map (Prod.mk key) := by
    rw [Option.map_map, Option.map_map]
    rfl
  refine List.foldl_rel (r := fun a b => Option.map shape a = Option.map shape b) ?_ fun a _ found found' hfound => ?_
  · rw [hmap, hmap, h.noises]
  · have ha := h.noises a.key
    cases hs : s.noises.get? a.key with
    | none =>
      have ht : t.noises.get? a.key = none := Option.map_eq_none_iff.mp (by rw [← ha, hs]; rfl)
      rw [ht]
      exact hfound
    | some text =>
      rw [hs] at ha
      obtain ⟨other, ht, hempty⟩ := Option.map_eq_some_iff.mp ha.symm
      rw [ht]
      exact congrArg (fun e => some (a.key, e)) hempty.symm

theorem seedOf (h : Alike s t) {n m : Option (String × String)} (hshape : n.map shape = m.map shape) :
    SameSeed (s.seedOf n) (t.seedOf m) := by
  have hroot : SameSeed (s.seedOf none) (t.seedOf none) := by
    unfold Scopes.seedOf
    rw [Option.filter_none]
    dsimp only
    rcases h.liveSecret?_none_or_some "" with ⟨hs, ht⟩ | ⟨a, b, hs, ht⟩
    · rw [hs, ht]
      exact .inl ⟨rfl, rfl⟩
    · rw [hs, ht]
      exact sameSeed_digestText _ _
  cases n with
  | none =>
    obtain rfl : m = none := Option.map_eq_none_iff.mp hshape.symm
    exact hroot
  | some a =>
    obtain ⟨b, rfl, hb⟩ := Option.map_eq_some_iff.mp hshape.symm
    have hempty : b.2.isEmpty = a.2.isEmpty := congrArg Prod.snd hb
    unfold Scopes.seedOf
    rw [Option.filter_some, Option.filter_some, hempty]
    cases a.2.isEmpty with
    | true => exact hroot
    | false => exact sameSeed_digestText _ _

/-- **Declarations that are alike seal the same paths.** -/
theorem effectiveSecret_isEmpty (h : Alike s t) (p : Path) :
    (s.effectiveSecret p).isEmpty = (t.effectiveSecret p).isEmpty := by
  have hnoise := h.noiseOver? p
  have hcovers (key : String) : ((s.noiseOver? p).all fun n => Path.atOrUnder key n.1) =
      (t.noiseOver? p).all fun n => Path.atOrUnder key n.1 := by
    have hshape (n : Option (String × String)) :
        (n.all fun n => Path.atOrUnder key n.1) = (n.map shape).all fun n => Path.atOrUnder key n.1 := by
      cases n <;> rfl
    rw [hshape, hshape, hnoise]
  have hend {a b : String} (hseed : SameSeed a b) :
      (if a = rootSeed then "" else a).isEmpty = (if b = rootSeed then "" else b).isEmpty := by
    rcases hseed with ⟨rfl, rfl⟩ | ⟨⟨ha, ha'⟩, hb, hb'⟩
    · rfl
    · rw [if_neg ha, if_neg hb, Bool.eq_iff_iff, String.isEmpty_iff, String.isEmpty_iff]
      exact iff_of_false ha' hb'
  refine hend (List.foldl_rel (r := SameSeed) (h.seedOf hnoise) fun a _ seed seed' hseed => ?_)
  rcases h.liveSecret?_none_or_some a.key with ⟨hs, ht⟩ | ⟨secret, secret', hs, ht⟩
  · rw [hs, ht]
    exact hseed
  · rw [hs, ht]
    dsimp only
    rw [hcovers]
    split
    · exact sameSeed_digestText _ _
    · exact hseed

end Alike

end PathLedger.Scopes
