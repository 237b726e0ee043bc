import Mathlib.Data.List.Nodup
import PathLedger.Digest.Blake3
import PathLedger.Proofs.Json.Quoted

/-!
# Texts with one digest

What is shown of digests is shown up to collisions: texts with one digest are one text, or else a collision has been
found among the texts that were really hashed.

* `Blake3.Collision` — two different texts of a row with the same digest.
* `not_collision` — rows of texts without collisions.
* `hash_eq_of_digestText` — the hexadecimal text of a digest shows the digest.
-/

namespace PathLedger

/-- Two different texts of a row have the same digest. -/
def Blake3.Collision (texts : List String) : Prop :=
  ∃ s ∈ texts, ∃ t ∈ texts, s ≠ t ∧ hash (Bytes.ofText s) = hash (Bytes.ofText t)

theorem Blake3.Collision.mono {texts texts' : List String} (h : Collision texts) (hsub : texts ⊆ texts') :
    Collision texts' := by
  obtain ⟨s, hs, t, ht, hne, hhash⟩ := h
  exact ⟨s, hsub hs, t, hsub ht, hne, hhash⟩

/-- Texts of which no two have one digest. -/
theorem not_collision {texts more : List String} (h : (texts.map fun text => Blake3.hash (Bytes.ofText text)).Nodup)
    (hmore : more = texts) : ¬Blake3.Collision (texts ++ more) := by
  subst hmore
  rintro ⟨s, hs, t, ht, hne, hhash⟩
  rw [List.mem_append, or_self] at hs ht
  exact hne (List.inj_on_of_nodup_map h hs ht hhash)

/-- Texts with digests of the same text have the same digest. -/
theorem hash_eq_of_digestText {s t : String} (h : digestText s = digestText t) :
    Blake3.hash (Bytes.ofText s) = Blake3.hash (Bytes.ofText t) := by
  have hread := congrArg Bytes.Hex.decode? h
  rw [digestText, digestText, Bytes.Hex.decode?_encode, Bytes.Hex.decode?_encode] at hread
  exact Option.some.inj hread

end PathLedger
