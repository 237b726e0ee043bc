import PathLedger.Proofs.Digest.Collision
import PathLedger.Proofs.Scope.Hiding

/-!
# The effective secret is the lineage of a path

A path inherits the text of the deepest noise along it, unless that is empty, and the secrets from that noise down;
without such a text the secret of the root comes first. The effective secret chains exactly this and nothing else: it
is empty when there is nothing to inherit, and from equal effective secrets the chains can be taken apart again, link
by link from the end, until they differ in a text that was hashed. Where hashing starts is told apart from every
digest by its first letter, whatever the declared texts hold.

* `Lineage`, `Scopes.lineage` — what a path inherits, said by depths along the path.
* `Lineage.chained`, `Lineage.hashed` — the end of its chain, and the texts that are hashed on the way.
* `Scopes.effectiveSecret_eq` — **the effective secret is the chained lineage**.
* `Lineage.eq_or_collision` — **lineages with one chain are one lineage**, or two texts hashed for them collide.
* `Scopes.effectiveSecret_tells_lineage` — both together, for any two rows of declarations and any two paths.
-/

namespace PathLedger

/-- What a path inherits: the text of its noise, unless that is empty, and the secrets that count, from shallow to
deep. -/
structure Lineage where
  noise : Option String
  secrets : List String
deriving DecidableEq, Repr

namespace Lineage

/-- Nothing is inherited. -/
def empty : Lineage := ⟨none, []⟩

/-- One more secret below. -/
def add (l : Lineage) (secret : String) : Lineage := ⟨l.noise, l.secrets ++ [secret]⟩

/-- The text that is hashed for a noise. -/
def noiseText (noise : String) : String := "noise::" ++ noise

/-- The text that is hashed for a secret behind what was chained so far. -/
def secretText (chained secret : String) : String := chained ++ "::" ++ secret

/-- Where chaining starts. -/
def start : Option String → String
  | none => Scopes.rootSeed
  | some noise => digestText (noiseText noise)

/-- What the lineage chains to. -/
def chained (l : Lineage) : String :=
  l.secrets.foldl Scopes.chain (start l.noise)

/-- The texts that are hashed for secrets, from what was chained so far on. -/
def secretTexts (chained : String) : List String → List String
  | [] => []
  | secret :: rest => secretText chained secret :: secretTexts (Scopes.chain chained secret) rest

/-- The texts that are hashed for a lineage, in turn. -/
def hashed (l : Lineage) : List String :=
  (l.noise.map noiseText).toList ++ secretTexts (start l.noise) l.secrets

end Lineage

namespace Scopes

/-- The depth and the text of the deepest noise at or above a path; the root has depth zero. -/
def deepestNoise? (s : Scopes) (p : Path) : Option (Nat × String) :=
  (List.range (p.length + 1)).reverse.findSome? fun n => (s.noises.get? (p.take n).key).map (Prod.mk n)

/-- The secrets declared at the depths from one on that are not above the deepest noise. -/
def secretsBelowNoise (s : Scopes) (p : Path) : List String :=
  (List.range' 1 p.length).filterMap fun n =>
    if (s.deepestNoise? p).all fun noise => noise.1 ≤ n then s.liveSecret? (p.take n).key else none

/-- What a path inherits from a row of declarations. The secret of the root counts where no noise has a text. -/
def lineage (s : Scopes) (p : Path) : Lineage :=
  match ((s.deepestNoise? p).map Prod.snd).filter (!·.isEmpty) with
  | some noise => ⟨some noise, s.secretsBelowNoise p⟩
  | none => ⟨none, (s.liveSecret? "").toList ++ s.secretsBelowNoise p⟩

end Scopes

/-! ## Chains -/

namespace Lineage

theorem chained_add (l : Lineage) (secret : String) :
    (l.add secret).chained = digestText (secretText l.chained secret) := by
  rw [chained, add, List.foldl_concat]
  rfl

theorem secretTexts_concat (chained : String) (secrets : List String) (secret : String) :
    secretTexts chained (secrets ++ [secret]) = secretTexts chained secrets ++
      [secretText (secrets.foldl Scopes.chain chained) secret] := by
  induction secrets generalizing chained with
  | nil => rfl
  | cons first rest ih =>
    rw [List.cons_append, secretTexts, ih, secretTexts, List.foldl_cons]
    rfl

theorem hashed_add (l : Lineage) (secret : String) :
    (l.add secret).hashed = l.hashed ++ [secretText l.chained secret] := by
  rw [hashed, add, secretTexts_concat, ← List.append_assoc]
  rfl

/-- The text that was hashed last for a lineage that is not empty. -/
inductive EndsIn : Lineage → String → Prop where
  | noise (noise : String) : EndsIn ⟨some noise, []⟩ (noiseText noise)
  | secret (above : Lineage) (secret : String) : EndsIn (above.add secret) (secretText above.chained secret)

theorem eq_empty_or_endsIn (l : Lineage) : l = empty ∨ ∃ text, EndsIn l text := by
  obtain ⟨noise, secrets⟩ := l
  rcases List.eq_nil_or_concat secrets with rfl | ⟨above, secret, rfl⟩
  · cases noise with
    | none => exact .inl rfl
    | some noise => exact .inr ⟨_, .noise noise⟩
  · rw [List.concat_eq_append]
    exact .inr ⟨_, .secret ⟨noise, above⟩ secret⟩

theorem EndsIn.chained {l : Lineage} {text : String} (h : EndsIn l text) : l.chained = digestText text := by
  cases h with
  | noise noise => rfl
  | secret above secret => exact chained_add above secret

theorem EndsIn.mem_hashed {l : Lineage} {text : String} (h : EndsIn l text) : text ∈ l.hashed := by
  cases h with
  | noise noise => exact List.mem_singleton_self _
  | secret above secret =>
    rw [hashed_add]
    exact List.mem_append_right _ (List.mem_singleton_self _)

/-- **Only the empty lineage chains to the seed of the root.** -/
theorem chained_eq_rootSeed_iff {l : Lineage} : l.chained = Scopes.rootSeed ↔ l = empty := by
  constructor
  · intro h
    obtain rfl | ⟨text, htext⟩ := eq_empty_or_endsIn l
    · rfl
    · exact absurd (htext.chained.symm.trans h) (Scopes.digestText_ne (by decide))
  · rintro rfl
    rfl

theorem chained_ne_empty (l : Lineage) : l.chained ≠ "" := by
  obtain rfl | ⟨text, htext⟩ := eq_empty_or_endsIn l
  · decide
  · rw [htext.chained]
    exact Scopes.digestText_ne (by decide)

/-! ## What tells the texts apart -/

/-- The digits of a digest. -/
theorem isDigit_of_mem_digestText {text : String} {c : Char} (h : c ∈ (digestText text).toList) :
    (Bytes.Hex.value? c).isSome := by
  rw [digestText, Bytes.Hex.encode, String.toList_ofList, List.mem_flatMap] at h
  obtain ⟨x, -, hc⟩ := h
  have hlt := x.toNat_lt
  rcases List.mem_pair.mp hc with rfl | rfl
  · rw [Bytes.Hex.value?_digit (show x.toNat / 16 < 16 by omega)]
    rfl
  · rw [Bytes.Hex.value?_digit (Nat.mod_lt _ (by decide))]
    rfl

/-- A text with a letter in front that is no digit does not start with a digest. -/
theorem digestText_append_ne {text rest other : String} {c : Char} {tail : List Char}
    (hother : other.toList = c :: tail) (hc : Bytes.Hex.value? c = none) : digestText text ++ rest ≠ other := by
  intro h
  have hchars := congrArg String.toList h
  rw [String.toList_append, hother] at hchars
  cases hdigits : (digestText text).toList with
  | nil =>
    have := length_digestText text
    rw [← String.length_toList, hdigits] at this
    cases this
  | cons d digits =>
    rw [hdigits] at hchars
    obtain ⟨rfl, -⟩ := List.cons.inj hchars
    have := isDigit_of_mem_digestText (hdigits ▸ List.mem_cons_self : d ∈ (digestText text).toList)
    rw [hc] at this
    cases this

/-- The text of a noise is none of a secret. -/
theorem noiseText_ne_secretText (noise : String) (l : Lineage) (secret : String) :
    noiseText noise ≠ secretText l.chained secret := by
  have hnoise : (noiseText noise).toList = 'n' :: ("oise::".toList ++ noise.toList) := by
    rw [noiseText, String.toList_append]
    rfl
  rw [secretText, String.append_assoc]
  obtain rfl | ⟨text, htext⟩ := eq_empty_or_endsIn l
  · intro h
    have hchars := congrArg String.toList h
    rw [hnoise, String.toList_append] at hchars
    exact absurd (List.cons.inj hchars).1 (by decide)
  · rw [htext.chained]
    exact (digestText_append_ne hnoise (by decide)).symm

/-- The text of a secret shows the secret and what it was chained to. -/
theorem secretText_inj {l l' : Lineage} {secret secret' : String}
    (h : secretText l.chained secret = secretText l'.chained secret') :
    l.chained = l'.chained ∧ secret = secret' := by
  have hroot (text : String) (secret secret' : String) :
      secretText (digestText text) secret ≠ secretText empty.chained secret' := by
    have hroot : (secretText empty.chained secret').toList = 'r' :: ("oot::".toList ++ secret'.toList) := by
      rw [secretText, String.toList_append, String.toList_append]
      rfl
    rw [secretText, String.append_assoc]
    exact digestText_append_ne hroot (by decide)
  have hlength : l.chained.toList.length = l'.chained.toList.length := by
    obtain rfl | ⟨text, htext⟩ := eq_empty_or_endsIn l <;> obtain rfl | ⟨text', htext'⟩ := eq_empty_or_endsIn l'
    · rfl
    · rw [htext'.chained] at h
      exact absurd h.symm (hroot text' secret' secret)
    · rw [htext.chained] at h
      exact absurd h (hroot text secret secret')
    · rw [htext.chained, htext'.chained, String.length_toList, String.length_toList, length_digestText,
        length_digestText]
  have hchars := congrArg String.toList h
  rw [secretText, secretText, String.append_assoc, String.append_assoc, String.toList_append, String.toList_append,
    String.toList_append, String.toList_append] at hchars
  obtain ⟨hchained, hrest⟩ := List.append_inj hchars hlength
  exact ⟨String.toList_inj.mp hchained, String.toList_inj.mp (List.append_cancel_left hrest)⟩

/-- Lineages that end in one text agree in their last link. -/
theorem EndsIn.link {l l' : Lineage} {text : String} (h : EndsIn l text) (h' : EndsIn l' text) :
    l = l' ∨ ∃ (above above' : Lineage) (secret : String), l = above.add secret ∧ l' = above'.add secret ∧
      above.chained = above'.chained := by
  generalize htext : text = other at h'
  cases h with
  | noise noise =>
    cases h' with
    | noise noise' =>
      have hchars := congrArg String.toList htext
      rw [noiseText, noiseText, String.toList_append, String.toList_append] at hchars
      exact .inl (by rw [String.toList_inj.mp (List.append_cancel_left hchars)])
    | secret above' secret' => exact absurd htext (noiseText_ne_secretText noise above' secret')
  | secret above secret =>
    cases h' with
    | noise noise' => exact absurd htext.symm (noiseText_ne_secretText noise' above secret)
    | secret above' secret' =>
      obtain ⟨hchained, rfl⟩ := secretText_inj htext
      exact .inr ⟨above, above', secret, rfl, rfl, hchained⟩

/-- **Lineages with one chain are one lineage**, or two different texts hashed for them have one digest. -/
theorem eq_or_collision (l l' : Lineage) (h : l.chained = l'.chained) :
    l = l' ∨ Blake3.Collision (l.hashed ++ l'.hashed) := by
  -- From the last link to the first: where the last texts agree, so does what they were chained to.
  obtain rfl | ⟨text, htext⟩ := eq_empty_or_endsIn l
  · exact .inl (chained_eq_rootSeed_iff.mp h.symm).symm
  obtain rfl | ⟨text', htext'⟩ := eq_empty_or_endsIn l'
  · exact .inl (chained_eq_rootSeed_iff.mp h)
  by_cases hsame : text = text'
  · obtain heq | ⟨above, above', secret, hl, hl', habove⟩ := htext.link (hsame ▸ htext')
    · exact .inl heq
    · refine (eq_or_collision above above' habove).imp (fun heq => by rw [hl, hl', heq]) fun hcollision => ?_
      refine hcollision.mono fun text ht => ?_
      rw [hl, hl', hashed_add, hashed_add]
      simp only [List.mem_append] at ht ⊢
      tauto
  · have hdigest : digestText text = digestText text' := htext.chained.symm.trans (h.trans htext'.chained)
    exact .inr ⟨text, List.mem_append_left _ htext.mem_hashed, text', List.mem_append_right _ htext'.mem_hashed, hsame,
      hash_eq_of_digestText hdigest⟩
termination_by l.secrets.length
decreasing_by
  rw [hl, add, List.length_append]
  exact Nat.lt_succ_self _

end Lineage

/-! ## Lineages of paths -/

/-- The key of a deeper path is longer, by a dot at least. -/
theorem Path.length_key_take_lt {p : Path} {m n : Nat} (hpos : 1 ≤ m) (hlt : m < n) (hn : n ≤ p.length) :
    (p.take m).key.toList.length < (p.take n).key.toList.length := by
  rw [length] at hn
  have hsplit : (p.take n).segments = (p.take m).segments ++ (p.segments.take n).drop m := by
    conv_lhs => rw [take, ← List.take_append_drop m (p.segments.take n), List.take_take,
      Nat.min_eq_left (Nat.le_of_lt hlt)]
    rfl
  have hfront : (p.take m).segments ≠ [] := by
    rw [← List.length_pos_iff, take, List.length_take]
    omega
  have hback : (p.segments.take n).drop m ≠ [] := by
    rw [← List.length_pos_iff, List.length_drop, List.length_take]
    omega
  have hkey : (p.take n).key = (p.take m).key ++ "." ++ joinSegments ((p.segments.take n).drop m) := by
    rw [key, hsplit, joinSegments_append hfront hback, key]
  rw [hkey, String.toList_append, String.toList_append, List.length_append, List.length_append]
  exact Nat.lt_add_right _ (Nat.lt_add_of_pos_right (by decide))

/-- Along a path, lying below one another is a matter of depth. -/
theorem Path.atOrUnder_take {p : Path} {m n : Nat} (hpos : 1 ≤ m) (hn : n ≤ p.length) :
    atOrUnder (p.take m).key (p.take n).key = decide (n ≤ m) := by
  rw [Bool.eq_iff_iff, decide_eq_true_iff]
  constructor
  · intro h
    by_contra hlt
    have hlonger := length_key_take_lt hpos (Nat.lt_of_not_le hlt) hn
    simp only [atOrUnder, Bool.or_eq_true, decide_eq_true_eq, List.isPrefixOf_iff_prefix,
      String.isEmpty_iff] at h
    rcases h with (hempty | hsame) | hprefix
    · rw [hempty] at hlonger
      exact absurd hlonger (Nat.not_lt_zero _)
    · rw [hsame] at hlonger
      exact absurd hlonger (Nat.lt_irrefl _)
    · have hle := hprefix.length_le
      rw [String.toList_append, List.length_append] at hle
      omega
  · intro hle
    cases n with
    | zero => rfl
    | succ n => exact atOrUnder_of_prefix (Scopes.take_isRoot (Nat.succ_pos n) hn) (List.take_prefix_take_left hle)

namespace Scopes

/-- Keeping the last thing found in a row is looking for it from the end. -/
theorem foldl_latest {α β : Type} {step : Option β → α → Option β} {find : α → Option β}
    (hstep : ∀ found a, step found a = (find a).or found) (init : Option β) (l : List α) :
    l.foldl step init = (l.reverse.findSome? find).or init := by
  induction l generalizing init with
  | nil => rfl
  | cons a rest ih =>
    rw [List.foldl_cons, ih, hstep, List.reverse_cons, List.findSome?_append, Option.or_assoc,
      List.findSome?_singleton]

/-- Passing over some things in a row is going along the others. -/
theorem foldl_filterMap {α β γ : Type} {step : γ → α → γ} {f : α → Option β} {g : γ → β → γ} {l : List α}
    (hstep : ∀ a ∈ l, ∀ acc, step acc a = (f a).elim acc (g acc)) (init : γ) :
    l.foldl step init = (l.filterMap f).foldl g init := by
  induction l generalizing init with
  | nil => rfl
  | cons a rest ih =>
    rw [List.foldl_cons, ih (fun b hb => hstep b (List.mem_cons_of_mem a hb)), hstep a List.mem_cons_self,
      List.filterMap_cons]
    cases f a <;> rfl

/-- The deepest noise is the one that is found along the path. -/
theorem noiseOver?_eq (s : Scopes) (p : Path) :
    s.noiseOver? p = (s.deepestNoise? p).map fun noise => ((p.take noise.1).key, noise.2) := by
  have hfold : s.noiseOver? p = (p.ancestors.reverse.findSome? fun a =>
      (s.noises.get? a.key).map fun text => (a.key, text)).or ((s.noises.get? "").map fun text => ("", text)) := by
    refine foldl_latest (fun found a => ?_) _ _
    cases s.noises.get? a.key <;> rfl
  have hrange : List.range (p.length + 1) = 0 :: List.range' 1 p.length := by
    rw [List.range_eq_range']
    rfl
  have hroot : (p.take 0).key = "" := rfl
  rw [hfold, deepestNoise?, hrange, List.reverse_cons, List.findSome?_append, List.findSome?_singleton, hroot,
    Option.map_or, List.map_findSome?, Path.ancestors, ← List.map_reverse, List.findSome?_map, Option.map_map]
  congr 2
  funext n
  cases hnoise : s.noises.get? (p.take n).key <;> simp [hnoise]

theorem deepestNoise?_le {s : Scopes} {p : Path} {noise : Nat × String} (h : s.deepestNoise? p = some noise) :
    noise.1 ≤ p.length := by
  obtain ⟨n, hn, hfound⟩ := List.exists_of_findSome?_eq_some h
  obtain ⟨text, -, rfl⟩ := Option.map_eq_some_iff.mp hfound
  exact Nat.lt_succ_iff.mp (List.mem_range.mp (List.mem_reverse.mp hn))

/-- The chain over a path goes along the secrets below its noise. -/
theorem chained_lineage (s : Scopes) (p : Path) :
    (s.lineage p).chained = (s.secretsBelowNoise p).foldl chain (s.seedOf (s.noiseOver? p)) := by
  have hseed : s.seedOf (s.noiseOver? p) =
      match ((s.deepestNoise? p).map Prod.snd).filter (!·.isEmpty) with
      | some noise => digestText (Lineage.noiseText noise)
      | none => (s.liveSecret? "").elim rootSeed (chain rootSeed) := by
    rw [seedOf, noiseOver?_eq]
    cases s.deepestNoise? p with
    | none => cases s.liveSecret? "" <;> rfl
    | some noise =>
      cases hempty : noise.2.isEmpty with
      | true => simp [Option.filter, hempty]; cases s.liveSecret? "" <;> rfl
      | false => simp [Option.filter, hempty, Lineage.noiseText]
  rw [hseed, lineage]
  cases ((s.deepestNoise? p).map Prod.snd).filter (!·.isEmpty) with
  | some noise => rfl
  | none => cases s.liveSecret? "" <;> rfl

/-- **The effective secret is the chained lineage**, empty where nothing is inherited. -/
theorem effectiveSecret_eq (s : Scopes) (p : Path) :
    s.effectiveSecret p = if (s.lineage p).chained = rootSeed then "" else (s.lineage p).chained := by
  have hfold : (s.lineage p).chained = p.ancestors.foldl
      (fun seed a =>
        match s.liveSecret? a.key with
        | none => seed
        | some secret =>
          if (s.noiseOver? p).all fun n => Path.atOrUnder a.key n.1 then chain seed secret else seed)
      (s.seedOf (s.noiseOver? p)) := by
    rw [chained_lineage, secretsBelowNoise, Path.ancestors, List.foldl_map]
    refine (foldl_filterMap (fun m hm seed => ?_) _).symm
    -- A scope counts unless it lies above the noise.
    have hcovers : ((s.noiseOver? p).all fun n => Path.atOrUnder (p.take m).key n.1) =
        (s.deepestNoise? p).all fun noise => decide (noise.1 ≤ m) := by
      rw [noiseOver?_eq]
      cases hnoise : s.deepestNoise? p with
      | none => rfl
      | some noise => exact Path.atOrUnder_take (List.mem_range'_1.mp hm).1 (deepestNoise?_le hnoise)
    rw [hcovers]
    cases s.liveSecret? (p.take m).key <;> cases (s.deepestNoise? p).all fun noise => decide (noise.1 ≤ m) <;> rfl
  rw [hfold]
  rfl

theorem effectiveSecret_eq_empty_iff (s : Scopes) (p : Path) : s.effectiveSecret p = "" ↔ s.lineage p = .empty := by
  rw [effectiveSecret_eq, ← Lineage.chained_eq_rootSeed_iff]
  split
  · exact iff_of_true rfl ‹_›
  · exact iff_of_false (Lineage.chained_ne_empty _) ‹_›

/-- **The effective secret is exactly the lineage**, whatever was declared: it is empty where nothing is inherited,
one lineage has one effective secret, and from one effective secret the lineage can be read off, unless two different
texts that were hashed have one digest. -/
theorem effectiveSecret_tells_lineage (s t : Scopes) (p q : Path) :
    (s.effectiveSecret p = "" ↔ s.lineage p = .empty) ∧
      (s.lineage p = t.lineage q → s.effectiveSecret p = t.effectiveSecret q) ∧
      (s.effectiveSecret p = t.effectiveSecret q →
        s.lineage p = t.lineage q ∨ Blake3.Collision ((s.lineage p).hashed ++ (t.lineage q).hashed)) := by
  refine ⟨effectiveSecret_eq_empty_iff s p, fun h => ?_, fun h => ?_⟩
  · rw [effectiveSecret_eq, effectiveSecret_eq, h]
  · by_cases hempty : s.lineage p = .empty
    · -- Both effective secrets are empty.
      rw [(effectiveSecret_eq_empty_iff s p).mpr hempty] at h
      exact .inl (hempty.trans ((effectiveSecret_eq_empty_iff t q).mp h.symm).symm)
    · have hempty' : t.lineage q ≠ .empty := fun hempty' =>
        hempty ((effectiveSecret_eq_empty_iff s p).mp (h.trans ((effectiveSecret_eq_empty_iff t q).mpr hempty')))
      rw [effectiveSecret_eq, effectiveSecret_eq, if_neg (mt Lineage.chained_eq_rootSeed_iff.mp hempty),
        if_neg (mt Lineage.chained_eq_rootSeed_iff.mp hempty')] at h
      exact Lineage.eq_or_collision _ _ h

/-- Below a noise a secret counts the same wherever the noise stands: the secrets above it make no difference. -/
theorem effectiveSecret_tells_lineage_noise :
    let s := ((empty.declareSecret ⟨[]⟩ "noise::b").declareNoise ⟨["a"]⟩ "b").declareSecret ⟨["a", "x"]⟩ "k"
    let t := (empty.declareNoise ⟨["z"]⟩ "b").declareSecret ⟨["z"]⟩ "k"
    s.effectiveSecret ⟨["a", "x", "y"]⟩ ≠ "" ∧ s.effectiveSecret ⟨["a", "x", "y"]⟩ = t.effectiveSecret ⟨["z"]⟩ ∧
      (s.lineage ⟨["a", "x", "y"]⟩ = t.lineage ⟨["z"]⟩ ∨
        Blake3.Collision ((s.lineage ⟨["a", "x", "y"]⟩).hashed ++ (t.lineage ⟨["z"]⟩).hashed)) := by
  intro s t
  have hs : s.lineage ⟨["a", "x", "y"]⟩ = ⟨some "b", ["k"]⟩ := by decide
  have ht : t.lineage ⟨["z"]⟩ = ⟨some "b", ["k"]⟩ := by decide
  obtain ⟨hempty, hequal, htells⟩ := effectiveSecret_tells_lineage s t ⟨["a", "x", "y"]⟩ ⟨["z"]⟩
  have hsame := hequal (hs.trans ht.symm)
  exact ⟨fun h => absurd (hs.symm.trans (hempty.mp h)) (by decide), hsame, htells hsame⟩

end Scopes

end PathLedger
