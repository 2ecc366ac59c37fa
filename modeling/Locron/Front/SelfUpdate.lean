import Locron.Lib.Digits

set_option autoImplicit false

/-! # Self-updates

A self-update replaces the running version by the offered one, unless the running version is at
least the offered one. Versions whose components all parse are compared by their components, others
by their texts. `versionAtLeast_order` says how far this is one order.
-/

namespace Locron.SelfUpdate

def parseVersion (version : List Char) : Option (List Nat) :=
  (version.splitOn '.').mapM (Digits.parse (2 ^ 64))

/-- The first components that differ decide, then the lengths. -/
def componentsAtLeast : List Nat → List Nat → Bool
  | a :: current, b :: other => if a ≠ b then decide (b < a) else componentsAtLeast current other
  | current, other => decide (other.length ≤ current.length)

/-- The order of texts: by their bytes in UTF-8, which is by the codes of their characters. -/
def codes (version : List Char) : List Nat := version.map Char.toNat

/-- `version_at_least`. -/
def versionAtLeast (current other : List Char) : Bool :=
  match parseVersion current, parseVersion other with
  | some current, some other => componentsAtLeast current other
  | _, _ => decide (codes other ≤ codes current)

/-- A release that is offered, and whether it can be fetched, checked and put in place. -/
structure Offer where
  tagName : List Char
  replaces : Bool

def Offer.version (offer : Offer) : List Char :=
  (['v'].isPrefixOf? offer.tagName).getD offer.tagName

/-- `update`: the version that runs afterwards. -/
def update (current : List Char) (offer : Offer) : List Char :=
  if versionAtLeast current offer.version then current
  else if offer.replaces then offer.version else current

/-- The versions that run, one after another. -/
def versions (current : List Char) : List Offer → List (List Char)
  | [] => [current]
  | offer :: offers => current :: versions (update current offer) offers

/-! ## The order -/

theorem componentsAtLeast_iff (current other : List Nat) :
    componentsAtLeast current other = true ↔ other ≤ current := by
  induction current generalizing other with
  | nil =>
    rw [← not_lt]
    cases other <;> simp [componentsAtLeast]
  | cons a current ih =>
    cases other with
    | nil => rw [← not_lt]; simp [componentsAtLeast]
    | cons b other =>
      have ih := ih other
      rw [← not_lt] at ih ⊢
      rw [componentsAtLeast, List.cons_lt_cons_iff]
      rcases lt_trichotomy a b with h | h | h
      · simp [h, h.ne, h.not_gt]
      · simp [h, ih]
      · simp [h, h.ne', h.not_gt]

/-- All components are numbers of the machine. -/
def Numeric (version : List Char) : Prop := (parseVersion version).isSome = true

/-- What the order compares, for versions that are all numeric or all not. -/
def key (version : List Char) : List Nat := (parseVersion version).getD (codes version)

theorem versionAtLeast_iff {current other : List Char} (h : Numeric current ↔ Numeric other) :
    versionAtLeast current other = true ↔ key other ≤ key current := by
  unfold versionAtLeast key
  unfold Numeric at h
  cases hcurrent : parseVersion current with
  | none =>
    have hother : parseVersion other = none := by simpa [hcurrent] using h
    simp [hother]
  | some components =>
    obtain ⟨others, hother⟩ := Option.isSome_iff_exists.mp (h.mp (by rw [hcurrent]; rfl))
    simp only [hother, Option.getD_some]
    exact componentsAtLeast_iff components others

theorem versionAtLeast_total (a b : List Char) :
    versionAtLeast a b = true ∨ versionAtLeast b a = true := by
  by_cases h : Numeric a ↔ Numeric b
  · rw [versionAtLeast_iff h, versionAtLeast_iff h.symm]
    exact le_total _ _
  · -- one of the two does not parse
    unfold versionAtLeast
    unfold Numeric at h
    cases ha : parseVersion a <;> cases hb : parseVersion b <;> simp_all [le_total]

theorem versionAtLeast_trans {a b c : List Char} (hab : Numeric a ↔ Numeric b)
    (hbc : Numeric b ↔ Numeric c) (h : versionAtLeast a b = true) (h' : versionAtLeast b c = true) :
    versionAtLeast a c = true :=
  (versionAtLeast_iff (hab.trans hbc)).mpr
    (((versionAtLeast_iff hbc).mp h').trans ((versionAtLeast_iff hab).mp h))

/-! ## Runs -/

/-- One update installs nothing older. -/
theorem update_spec {current : List Char} {offer : Offer}
    (h : Numeric offer.version ↔ Numeric current) :
    (Numeric (update current offer) ↔ Numeric current) ∧
      versionAtLeast (update current offer) current = true := by
  have hrefl := (or_self _).mp (versionAtLeast_total current current)
  unfold update
  split_ifs with hold hreplaces
  · exact ⟨Iff.rfl, hrefl⟩
  · exact ⟨h, (versionAtLeast_total _ _).resolve_right hold⟩
  · exact ⟨Iff.rfl, hrefl⟩

/-- No run of updates installs anything older than what it started with. -/
theorem versions_spec {offers : List Offer} {current : List Char}
    (h : ∀ offer ∈ offers, Numeric offer.version ↔ Numeric current) {version : List Char}
    (hmem : version ∈ versions current offers) :
    (Numeric version ↔ Numeric current) ∧ versionAtLeast version current = true := by
  induction offers generalizing current with
  | nil =>
    obtain rfl := List.mem_singleton.mp hmem
    exact ⟨Iff.rfl, (or_self _).mp (versionAtLeast_total version version)⟩
  | cons offer offers ih =>
    obtain ⟨hoffer, hoffers⟩ := List.forall_mem_cons.mp h
    obtain ⟨hkind, hleast⟩ := update_spec hoffer
    rcases List.mem_cons.mp hmem with rfl | hmem
    · exact ⟨Iff.rfl, (or_self _).mp (versionAtLeast_total version version)⟩
    · obtain ⟨hkind', hleast'⟩ := ih (fun o ho => (hoffers o ho).trans hkind.symm) hmem
      exact ⟨hkind'.trans hkind, versionAtLeast_trans hkind' hkind hleast' hleast⟩

/-- **Where comparing versions is one order.** The comparison is reflexive and total. It is
transitive for versions that are all numeric or all not, and then no run of updates installs
anything older than what an earlier update replaced. -/
theorem versionAtLeast_order (current : List Char) (offers : List Offer) :
    (∀ a b, versionAtLeast a b = true ∨ versionAtLeast b a = true) ∧
    (∀ a b c, (Numeric a ↔ Numeric b) → (Numeric b ↔ Numeric c) →
      versionAtLeast a b = true → versionAtLeast b c = true → versionAtLeast a c = true) ∧
    (∀ a b as bs, parseVersion a = some as → parseVersion b = some bs →
      (versionAtLeast a b = true ↔ bs ≤ as)) ∧
    ((∀ offer ∈ offers, Numeric offer.version ↔ Numeric current) →
      (versions current offers).Pairwise fun earlier later =>
        versionAtLeast later earlier = true) := by
  refine ⟨versionAtLeast_total, fun a b c => versionAtLeast_trans, ?_, ?_⟩
  · intro a b as bs ha hb
    unfold versionAtLeast
    rw [ha, hb]
    exact componentsAtLeast_iff as bs
  · intro h
    induction offers generalizing current with
    | nil => exact List.pairwise_singleton _ _
    | cons offer offers ih =>
      obtain ⟨hoffer, hoffers⟩ := List.forall_mem_cons.mp h
      obtain ⟨hkind, hleast⟩ := update_spec hoffer
      have hrest := fun o ho => (hoffers o ho).trans hkind.symm
      refine List.pairwise_cons.mpr ⟨fun later hlater => ?_, ih _ hrest⟩
      obtain ⟨hkind', hleast'⟩ := versions_spec hrest hlater
      exact versionAtLeast_trans hkind' hkind hleast' hleast

/-- Two updates from `0.10.0`, the first to a pre-release of `0.9.0`, end in `0.9.1`. -/
theorem older_installed :
    versions "0.10.0".toList [⟨"v0.9.0-rc.1".toList, true⟩, ⟨"v0.9.1".toList, true⟩]
      = ["0.10.0".toList, "0.9.0-rc.1".toList, "0.9.1".toList] ∧
    versionAtLeast "0.9.1".toList "0.10.0".toList = false := by
  decide +kernel

end Locron.SelfUpdate
