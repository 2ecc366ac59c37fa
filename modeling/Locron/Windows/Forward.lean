import Locron.Windows.Safety

set_option autoImplicit false

/-! # Steps forward while rolling back

From every record of a transaction that is rolling back and has a file with a step forward before
it, the checks accept a record in which that file takes the step. So `safe_of_calm` cannot be
improved (`safe_iff_calm`).
-/

namespace Locron.Windows

open Except

variable {sha256 : Chars → Chars} {request : Request} {digest : Chars} {name : Chars}

/-! ## The step of a file -/

/-- The parts of the check of a file. -/
structure Leaf.Sound (name : Chars) (leaf : Leaf) : Prop where
  identity : leaf.original.identity.validate = .ok ()
  content : leaf.original.content.validate name = .ok ()
  desired : ∀ content ∈ leaf.desired.toList, content.validate name = .ok ()
  backup : ∀ fact ∈ leaf.backup.toList, leaf.validateBackup fact = .ok ()
  created : ∀ identity ∈ leaf.created.toList, leaf.validateCreated identity = .ok ()
  rollback : ∀ identity ∈ leaf.rollback.toList, leaf.validateRollback identity = .ok ()
  required : (leaf.phase.backupRequired = true → leaf.backup.isSome = true) ∧
    (leaf.phase.createdRequired = true → leaf.created.isSome = true) ∧
    (leaf.phase.rollbackRequired = true → leaf.rollback.isSome = true)
  untouched : leaf.phase = .original ∨ leaf.phase = .backupIntent →
    leaf.backup = none ∧ leaf.created = none ∧ leaf.rollback = none
  replaces : leaf.phase = .createIntent ∨ leaf.phase = .created ∨ leaf.phase = .verified →
    leaf.desired.isSome = true
  notCreated : leaf.phase.createdPossible = false → leaf.created = none
  notRestored : leaf.phase.rollbackRequired = false → leaf.rollback = none

theorem Leaf.validate_eq_ok {leaf : Leaf} : leaf.validate name = .ok () ↔ leaf.Sound name := by
  unfold Leaf.validate Leaf.validatePhase
  simp only [then_eq_ok, ensure_eq_ok, forEach_eq_ok]
  constructor
  · rintro ⟨h₁, h₂, h₃, h₄, h₅, h₆, h₇, h₈, h₉, h₁₀, h₁₁⟩
    exact ⟨h₁, h₂, h₃, h₄, h₅, h₆, h₇, h₈, h₉, h₁₀, h₁₁⟩
  · rintro ⟨h₁, h₂, h₃, h₄, h₅, h₆, h₇, h₈, h₉, h₁₀, h₁₁⟩
    exact ⟨h₁, h₂, h₃, h₄, h₅, h₆, h₇, h₈, h₉, h₁₀, h₁₁⟩

/-- The next step forward of a file, with the identity of the file that it creates. -/
def Leaf.advanced (fresh : Identity) (leaf : Leaf) : Leaf :=
  match leaf.phase with
  | .backedUp => { leaf with phase := .deleteIntent }
  | .deleteIntent => { leaf with phase := .absent }
  | .absent => { leaf with phase := .createIntent }
  | .createIntent => { leaf with phase := .created, created := some fresh }
  | .created => { leaf with phase := .verified }
  | _ => leaf

section Advanced

variable {fresh : Identity} {leaf : Leaf}

theorem Leaf.advanced_facts (fresh : Identity) (leaf : Leaf) :
    (leaf.advanced fresh).original = leaf.original ∧ (leaf.advanced fresh).desired = leaf.desired ∧
      (leaf.advanced fresh).backup = leaf.backup ∧
        (leaf.advanced fresh).rollback = leaf.rollback := by
  unfold Leaf.advanced
  split <;> exact ⟨rfl, rfl, rfl, rfl⟩

/-- Where an advancing file stands, and the steps. -/
theorem Leaf.advanced_cases (h : leaf.advances = true) :
    (leaf.phase = .backedUp ∧ leaf.advanced fresh = { leaf with phase := .deleteIntent }) ∨
      (leaf.phase = .deleteIntent ∧ leaf.advanced fresh = { leaf with phase := .absent }) ∨
      (leaf.phase = .absent ∧ leaf.desired.isSome = true ∧
        leaf.advanced fresh = { leaf with phase := .createIntent }) ∨
      (leaf.phase = .createIntent ∧
        leaf.advanced fresh = { leaf with phase := .created, created := some fresh }) ∨
      (leaf.phase = .created ∧ leaf.advanced fresh = { leaf with phase := .verified }) := by
  unfold Leaf.advances at h
  unfold Leaf.advanced
  generalize hphase : leaf.phase = phase at h ⊢
  cases phase <;> simp_all

theorem Leaf.advanced_forward (h : leaf.advances = true) :
    (leaf.advanced fresh).phase.forward = true ∧ (leaf.advanced fresh).phase ≠ leaf.phase := by
  rcases Leaf.advanced_cases h with ⟨hphase, heq⟩ | ⟨hphase, heq⟩ | ⟨hphase, -, heq⟩ |
    ⟨hphase, heq⟩ | ⟨hphase, heq⟩ <;> rw [heq, hphase] <;> exact ⟨rfl, nofun⟩

/-- The step is one that the check of a successor takes. -/
theorem Leaf.follows_advanced (hsound : leaf.Sound name) (h : leaf.advances = true) :
    (leaf.advanced fresh).Follows leaf := by
  obtain ⟨horiginal, hdesired, hbackup, hrollback⟩ := leaf.advanced_facts fresh
  have hne := (@Leaf.advanced_forward fresh leaf h).2
  have hnone : leaf.phase = .createIntent → leaf.created = none := fun hphase =>
    hsound.notCreated (by rw [hphase]; decide)
  have hcreated : (leaf.advanced fresh).created = leaf.created ∨
      (leaf.phase = .createIntent ∧ (leaf.advanced fresh).phase = .created) := by
    rcases Leaf.advanced_cases h with ⟨-, heq⟩ | ⟨-, heq⟩ | ⟨-, -, heq⟩ | ⟨hphase, heq⟩ |
      ⟨-, heq⟩ <;>
      rw [heq]
    · exact Or.inl rfl
    · exact Or.inl rfl
    · exact Or.inl rfl
    · exact Or.inr ⟨hphase, rfl⟩
    · exact Or.inl rfl
  refine ⟨⟨horiginal, hdesired⟩, Or.inr hbackup.symm, ?_, Or.inr hrollback.symm,
    Or.inr ⟨hne, ?_, ?_, ?_, ?_⟩⟩
  · rcases hcreated with heq | ⟨hphase, -⟩
    · exact Or.inr heq.symm
    · exact Or.inl (hnone hphase)
  · rcases Leaf.advanced_cases h with ⟨hphase, heq⟩ | ⟨hphase, heq⟩ | ⟨hphase, -, heq⟩ |
      ⟨hphase, heq⟩ | ⟨hphase, heq⟩ <;> rw [heq, hphase] <;> rfl
  · intro hnone hsome
    rw [hbackup, hnone] at hsome
    cases hsome
  · intro hnone hsome
    rcases hcreated with heq | hintent
    · rw [heq, hnone] at hsome
      cases hsome
    · exact hintent
  · intro hrolled
    have hforward := (@Leaf.advanced_forward fresh leaf h).1
    rw [hrolled] at hforward
    cases hforward

/-- A file with a backup passes its check in a phase forward that fits what it has created. -/
theorem Leaf.Sound.enter {phase : LeafPhase} {created : Option Identity} (h : leaf.Sound name)
    (hforward : phase.forward = true) (hbacked : leaf.backup.isSome = true)
    (hrestored : leaf.rollback = none)
    (hvalid : ∀ identity ∈ created.toList, leaf.validateCreated identity = .ok ())
    (hpresent : phase.createdRequired = true → created.isSome = true)
    (habsent : phase.createdPossible = false → created = none)
    (hdesired : phase = .createIntent ∨ phase = .created ∨ phase = .verified →
      leaf.desired.isSome = true) :
    Leaf.Sound name { leaf with phase := phase, created := created } := by
  have hunrestored : phase.rollbackRequired = false := by
    revert hforward
    cases phase <;> decide
  refine ⟨h.identity, h.content, h.desired, h.backup, hvalid, ?_, ⟨fun _ => hbacked, hpresent, ?_⟩,
    ?_, hdesired, habsent, fun _ => hrestored⟩
  · intro identity hmem
    rw [show Leaf.rollback { leaf with phase := phase, created := created } = none from
      hrestored] at hmem
    cases hmem
  · intro hrequired
    cases hunrestored.symm.trans hrequired
  · rintro (rfl | rfl) <;> cases hforward

/-- A file with a step forward before it has a backup and has not been restored. -/
theorem Leaf.phases_of_advances (h : leaf.advances = true) :
    leaf.phase.rollbackRequired = false ∧ leaf.phase.backupRequired = true := by
  unfold Leaf.advances at h
  have hphase : leaf.phase ∈ [LeafPhase.backedUp, .deleteIntent, .createIntent, .created,
    .absent] := by
    generalize leaf.phase = phase at h ⊢
    cases phase <;> simp_all
  revert hphase
  generalize leaf.phase = phase
  revert phase
  decide

/-- The file passes its check after the step, if the new identity is a new one. -/
theorem Leaf.sound_advanced (hsound : leaf.Sound name) (h : leaf.advances = true)
    (hfresh : fresh.validate = .ok ()) (horiginal : fresh ≠ leaf.original.identity)
    (hbackup : ∀ fact ∈ leaf.backup, fresh ≠ fact.identity) : (leaf.advanced fresh).Sound name := by
  have hrestored : leaf.rollback = none := hsound.notRestored (Leaf.phases_of_advances h).1
  have hbacked : leaf.backup.isSome = true := hsound.required.1 (Leaf.phases_of_advances h).2
  -- before the creation there is no new identity
  have hcreated : leaf.phase.createdPossible = false → leaf.created = none := hsound.notCreated
  rcases Leaf.advanced_cases h with ⟨hphase, heq⟩ | ⟨hphase, heq⟩ | ⟨hphase, hdesired, heq⟩ |
    ⟨hphase, heq⟩ | ⟨hphase, heq⟩ <;> rw [heq] <;> rw [hphase] at hcreated
  · exact hsound.enter rfl hbacked hrestored hsound.created (fun h => by cases h)
      (fun _ => hcreated rfl) (by simp)
  · exact hsound.enter rfl hbacked hrestored hsound.created (fun h => by cases h)
      (fun _ => hcreated rfl) (by simp)
  · exact hsound.enter rfl hbacked hrestored hsound.created (fun h => by cases h)
      (fun _ => hcreated rfl) fun _ => hdesired
  · have hdesired : leaf.desired.isSome = true := hsound.replaces (Or.inl hphase)
    refine hsound.enter rfl hbacked hrestored ?_ (fun _ => rfl) (fun h => by cases h) fun _ =>
      hdesired
    intro identity hmem
    obtain rfl := List.mem_singleton.mp hmem
    unfold Leaf.validateCreated
    simp only [then_eq_ok, ensure_eq_ok]
    exact ⟨hfresh, hdesired, horiginal, hbackup⟩
  · have hdesired : leaf.desired.isSome = true := hsound.replaces (Or.inr (Or.inl hphase))
    exact hsound.enter rfl hbacked hrestored hsound.created
      (fun _ => hsound.required.2.1 (by rw [hphase]; decide)) (fun h => by cases h) fun _ =>
        hdesired

/-- The new identity is the only one that the step adds. -/
theorem Leaf.created_advanced (fresh : Identity) (leaf : Leaf) :
    (leaf.advanced fresh).created = leaf.created ∨ (leaf.advanced fresh).created = some fresh := by
  unfold Leaf.advanced
  split <;> first | exact Or.inl rfl | exact Or.inr rfl

end Advanced

/-! ## Identities that are not in use -/

/-- Identities that differ from one another. -/
def spareIdentity (n : Nat) : Identity :=
  ⟨List.replicate 16 '0', List.replicate n 'f' ++ List.replicate (32 - n) '0'⟩

theorem exists_fresh {used : List Identity} (h : used.length ≤ 32) :
    ∃ fresh : Identity, fresh.validate = .ok () ∧ fresh ∉ used := by
  by_contra hnone
  push Not at hnone
  have hvalid : ∀ n ∈ List.range 33, (spareIdentity n).validate = .ok () := by decide +kernel
  have hsubset : (List.range 33).map spareIdentity ⊆ used := by
    intro identity hmem
    obtain ⟨n, hn, rfl⟩ := List.mem_map.mp hmem
    exact hnone _ (hvalid n hn)
  have hnodup : ((List.range 33).map spareIdentity).Nodup := by decide +kernel
  have hlength := (hnodup.subperm hsubset).length_le
  rw [List.length_map, List.length_range] at hlength
  omega

theorem nodup_filterMap_of_fresh {α β : Type} {entries : List α} {f g : α → Option β} {place : α}
    {fresh : β} (hentries : entries.Nodup)
    (hg : ∀ entry ∈ entries, g entry = f entry ∨ entry = place ∧ g entry = some fresh)
    (hfresh : fresh ∉ entries.filterMap f) (hnodup : (entries.filterMap f).Nodup) :
    (entries.filterMap g).Nodup := by
  induction entries with
  | nil => exact List.nodup_nil
  | cons entry entries ih =>
    obtain ⟨hnot, hentries⟩ := List.nodup_cons.mp hentries
    have hrest := fun e he => hg e (List.mem_cons_of_mem _ he)
    have hfresh' : fresh ∉ entries.filterMap f := by
      rw [List.mem_filterMap] at hfresh ⊢
      rintro ⟨e, he, hf⟩
      exact hfresh ⟨e, List.mem_cons_of_mem _ he, hf⟩
    have hnodup' : (entries.filterMap f).Nodup :=
      hnodup.sublist ((List.sublist_cons_self entry entries).filterMap f)
    have htail := ih hentries hrest hfresh' hnodup'
    rcases hg entry List.mem_cons_self with heq | ⟨rfl, heq⟩
    · cases hvalue : f entry with
      | none => rwa [List.filterMap_cons_none (heq.trans hvalue)]
      | some value =>
        rw [List.filterMap_cons_some hvalue] at hnodup hfresh
        rw [List.filterMap_cons_some (heq.trans hvalue), List.nodup_cons]
        refine ⟨?_, htail⟩
        intro hmem
        obtain ⟨e, he, hvalue'⟩ := List.mem_filterMap.mp hmem
        rcases hrest e he with heq' | ⟨-, heq'⟩
        · exact (List.nodup_cons.mp hnodup).1 (List.mem_filterMap.mpr ⟨e, he, heq' ▸ hvalue'⟩)
        · have : fresh = value := Option.some.inj (heq'.symm.trans hvalue')
          exact hfresh (this ▸ List.mem_cons_self)
    · -- the place itself: the rest is as before
      have hsame : entries.filterMap g = entries.filterMap f := by
        refine List.filterMap_congr fun e he => ?_
        rcases hrest e he with heq' | ⟨rfl, -⟩
        · exact heq'
        · exact absurd he hnot
      rw [List.filterMap_cons_some heq, hsame, List.nodup_cons]
      exact ⟨hfresh', hnodup'⟩

/-! ## The next record -/

/-- The step of the file in one place. -/
def advanceAt (place : Chars) (fresh : Identity) (name : Chars) (leaf : Leaf) : Leaf :=
  if name = place then leaf.advanced fresh else leaf

/-- The next record, in which one file takes its step forward. -/
def Record.advance (place : Chars) (fresh : Identity) (record : Record) : Record :=
  { record with
    sequence := record.sequence + 1
    leaves := record.leaves.map (advanceAt place fresh) }

section Advance

variable {place : Chars} {fresh : Identity} {record : Record} {leaf : Leaf}

theorem advanceAt_facts (place : Chars) (fresh : Identity) (name : Chars) (leaf : Leaf) :
    (advanceAt place fresh name leaf).original = leaf.original ∧
      (advanceAt place fresh name leaf).desired = leaf.desired ∧
      (advanceAt place fresh name leaf).backup = leaf.backup ∧
      (advanceAt place fresh name leaf).rollback = leaf.rollback := by
  unfold advanceAt
  split
  · exact leaf.advanced_facts fresh
  · exact ⟨rfl, rfl, rfl, rfl⟩

theorem created_advanceAt (place : Chars) (fresh : Identity) (name : Chars) (leaf : Leaf) :
    (advanceAt place fresh name leaf).created = leaf.created ∨
      name = place ∧ (advanceAt place fresh name leaf).created = some fresh := by
  unfold advanceAt
  by_cases hname : name = place
  · rw [if_pos hname]
    rcases Leaf.created_advanced fresh leaf with heq | heq
    · exact Or.inl heq
    · exact Or.inr ⟨hname, heq⟩
  · rw [if_neg hname]
    exact Or.inl rfl

/-- The recorded identities stay, all but those of new files. -/
theorem Record.identities_advance (place : Chars) (fresh : Identity) (record : Record) :
    (record.advance place fresh).originals = record.originals ∧
      (record.advance place fresh).backups = record.backups ∧
      (record.advance place fresh).restoreds = record.restoreds := by
  refine ⟨NameMap.values_map_congr fun name leaf => ?_,
    NameMap.values_filterMap_congr fun name leaf => ?_,
    NameMap.values_filterMap_congr fun name leaf => ?_⟩
  · rw [(advanceAt_facts place fresh name leaf).1]
  · rw [(advanceAt_facts place fresh name leaf).2.2.1]
  · exact (advanceAt_facts place fresh name leaf).2.2.2

theorem Record.mem_createds_advance {identity : Identity}
    (h : identity ∈ (record.advance place fresh).createds) :
    identity ∈ record.createds ∨ identity = fresh := by
  obtain ⟨leaf', hmem, hcreated⟩ := List.mem_filterMap.mp h
  obtain ⟨name, hentry⟩ := NameMap.mem_values.mp hmem
  obtain ⟨leaf, hleaf, heq⟩ := NameMap.mem_entries_map.mp hentry
  rw [show leaf' = advanceAt place fresh name leaf from heq] at hcreated
  rcases created_advanceAt place fresh name leaf with hsame | ⟨-, hfresh⟩
  · rw [hsame] at hcreated
    exact Or.inl (List.mem_filterMap.mpr ⟨leaf, NameMap.mem_values.mpr ⟨name, hleaf⟩, hcreated⟩)
  · exact Or.inr (Option.some.inj (hcreated.symm.trans hfresh))

theorem Record.nodup_createds_advance (hmem : (place, leaf) ∈ record.leaves.entries)
    (hfresh : fresh ∉ record.createds) (hnodup : record.createds.Nodup) :
    (record.advance place fresh).createds.Nodup := by
  unfold Record.createds NameMap.values at hfresh hnodup
  rw [List.filterMap_map] at hfresh hnodup
  show (((record.leaves.map (advanceAt place fresh)).entries.map Prod.snd).filterMap
    (·.created)).Nodup
  unfold NameMap.map
  rw [List.map_map, List.filterMap_map]
  refine @nodup_filterMap_of_fresh _ _ _ _ _ (place, leaf) _
    (.of_map Prod.fst record.leaves.nodup_keys) ?_ hfresh hnodup
  rintro ⟨name, other⟩ hother
  rcases created_advanceAt place fresh name other with heq | ⟨rfl, heq⟩
  · exact Or.inl heq
  refine Or.inr ⟨?_, heq⟩
  have hsame := (NameMap.get_eq_some.mpr hother).symm.trans (NameMap.get_eq_some.mpr hmem)
  rw [Option.some.inj hsame]

/-- The identities still do not clash. -/
theorem Record.distinct_advance (h : record.Distinct) (hmem : (place, leaf) ∈ record.leaves.entries)
    (hadvances : leaf.advances = true) (hvalid : fresh.validate = .ok ())
    (hfresh : fresh ∉ record.originals ++ record.backups ++ record.createds ++ record.restoreds) :
    (record.advance place fresh).Distinct := by
  simp only [List.mem_append, not_or] at hfresh
  obtain ⟨⟨⟨hfresh₁, hfresh₂⟩, hfresh₃⟩, hfresh₄⟩ := hfresh
  obtain ⟨horiginals, hbackups, hrestoreds⟩ := record.identities_advance place fresh
  have hleaf : ∀ other, (place, other) ∈ record.leaves.entries → other = leaf := fun other hother =>
    Option.some.inj ((NameMap.get_eq_some.mpr hother).symm.trans (NameMap.get_eq_some.mpr hmem))
  have hvalue : leaf ∈ record.leaves.values := NameMap.mem_values.mpr ⟨place, hmem⟩
  have hsound : leaf.Sound place := Leaf.validate_eq_ok.mp (h.leaves _ hmem)
  have hstep : (leaf.advanced fresh).Sound place := by
    refine Leaf.sound_advanced hsound hadvances hvalid ?_ ?_
    · rintro rfl
      exact hfresh₁ (List.mem_map.mpr ⟨leaf, hvalue, rfl⟩)
    · rintro fact hfact rfl
      exact hfresh₂ (List.mem_filterMap.mpr ⟨leaf, hvalue, by rw [hfact]; rfl⟩)
  refine ⟨?_, horiginals ▸ h.originals, hbackups ▸ h.backups,
    Record.nodup_createds_advance hmem hfresh₃ h.createds, hrestoreds ▸ h.restoreds, ?_, ?_⟩
  · rintro ⟨name, leaf'⟩ hentry
    obtain ⟨other, hother, heq⟩ := NameMap.mem_entries_map.mp hentry
    obtain rfl : leaf' = advanceAt place fresh name other := heq
    unfold advanceAt
    by_cases hname : name = place
    · subst hname
      rw [if_pos rfl, hleaf other hother]
      exact Leaf.validate_eq_ok.mpr hstep
    · rw [if_neg hname]
      exact h.leaves _ hother
  · rw [horiginals, hbackups, hrestoreds]
    obtain ⟨hd₁, hd₂, hd₃, hd₄, hd₅⟩ := h.disjoint
    refine ⟨hd₁, ?_, ?_, hd₄, ?_⟩
    · intro i hi
      rcases Record.mem_createds_advance hi with hi | rfl
      · exact hd₂ i hi
      · exact hfresh₁
    · intro i hi
      rcases Record.mem_createds_advance hi with hi | rfl
      · exact hd₃ i hi
      · exact hfresh₂
    · intro i hi hcreated
      rcases Record.mem_createds_advance hcreated with hcreated | rfl
      · exact hd₅ i hi hcreated
      · exact hfresh₄ hi
  · rw [horiginals]
    intro leaf' hvalue' identity hidentity
    obtain ⟨name, hentry⟩ := NameMap.mem_values.mp hvalue'
    obtain ⟨other, hother, heq⟩ := NameMap.mem_entries_map.mp hentry
    obtain rfl : leaf' = advanceAt place fresh name other := heq
    by_cases hname : name = place
    · -- the file that steps forward has not been restored
      subst hname
      have hnone : other.rollback = none := by
        rw [hleaf other hother]
        exact hsound.notRestored (Leaf.phases_of_advances hadvances).1
      rw [(advanceAt_facts name fresh name other).2.2.2, hnone] at hidentity
      cases hidentity
    · have hsame : advanceAt place fresh name other = other := if_neg hname
      rw [hsame] at hidentity ⊢
      exact h.adopted other (NameMap.mem_values.mpr ⟨name, hother⟩) identity hidentity

/-- The files found in the next record. -/
theorem Record.get_advance (place : Chars) (fresh : Identity) (record : Record) (name : Chars) :
    (record.advance place fresh).leaves.get name =
      (record.leaves.get name).map (advanceAt place fresh name) := NameMap.get_map _ name

/-- The inventory reads names, original facts and desired bytes only. -/
theorem Record.validatePayload_advance {receipt : Receipt}
    (h : record.validatePayload receipt name = .ok ()) :
    (record.advance place fresh).validatePayload receipt name = .ok () := by
  unfold Record.validatePayload at h ⊢
  simp only [then_eq_ok, ensure_eq_ok, Record.get_advance, Option.isSome_map] at h ⊢
  refine ⟨h.1, fun leaf hleaf => ?_⟩
  obtain ⟨other, hother, rfl⟩ := Option.map_eq_some_iff.mp hleaf
  rw [(advanceAt_facts place fresh name other).1]
  exact h.2 other hother

theorem Record.validateReplacement_advance {receipt : Receipt}
    (h : record.validateReplacement sha256 request receipt = .ok ()) :
    (record.advance place fresh).validateReplacement sha256 request receipt = .ok () := by
  unfold Record.validateReplacement at h ⊢
  obtain ⟨hretained, h⟩ := then_eq_ok.mp h
  refine then_eq_ok.mpr ⟨hretained, ?_⟩
  have hreceipt : (record.advance place fresh).newReceipt = record.newReceipt := rfl
  rw [hreceipt]
  cases hnew : record.newReceipt with
  | none =>
    rw [hnew] at h
    cases h
  | some new =>
    rw [hnew] at h
    obtain ⟨hvalid, h⟩ := then_eq_ok.mp h
    obtain ⟨hversion, h⟩ := then_eq_ok.mp h
    refine then_eq_ok.mpr ⟨hvalid, then_eq_ok.mpr ⟨hversion, ?_⟩⟩
    have hdesired : ∀ entry ∈ (record.advance place fresh).leaves.entries,
        (∀ old ∈ record.leaves.entries, validateDesired sha256 new old.1 old.2 = .ok ()) →
        validateDesired sha256 new entry.1 entry.2 = .ok () := by
      rintro ⟨name, leaf⟩ hentry hall
      obtain ⟨other, hother, heq⟩ := NameMap.mem_entries_map.mp hentry
      obtain rfl : leaf = advanceAt place fresh name other := heq
      unfold validateDesired
      rw [(advanceAt_facts place fresh name other).2.1]
      exact hall _ hother
    have hedit : (record.advance place fresh).pathEdit = record.pathEdit := rfl
    by_cases hpath : record.pathEdit = none
    · rw [if_pos hpath] at h
      rw [hedit, if_pos hpath]
      obtain ⟨hclaim, hall⟩ := then_eq_ok.mp h
      exact then_eq_ok.mpr ⟨hclaim, forEach_eq_ok.mpr fun entry hentry =>
        hdesired entry hentry (forEach_eq_ok.mp hall)⟩
    · rw [if_neg hpath] at h
      rw [hedit, if_neg hpath]
      obtain ⟨hclaim, hall⟩ := then_eq_ok.mp h
      exact then_eq_ok.mpr ⟨hclaim, forEach_eq_ok.mpr fun entry hentry =>
        hdesired entry hentry (forEach_eq_ok.mp hall)⟩

theorem Record.validateRemoval_advance {receipt : Receipt}
    (h : record.validateRemoval request receipt = .ok ()) :
    (record.advance place fresh).validateRemoval request receipt = .ok () := by
  unfold Record.validateRemoval at h ⊢
  rw [ensure_eq_ok] at h ⊢
  refine ⟨h.1, h.2.1, ?_, h.2.2.2⟩
  intro leaf hleaf
  obtain ⟨name, hentry⟩ := NameMap.mem_values.mp hleaf
  obtain ⟨other, hother, heq⟩ := NameMap.mem_entries_map.mp hentry
  obtain rfl : leaf = advanceAt place fresh name other := heq
  rw [(advanceAt_facts place fresh name other).2.1]
  exact h.2.2.1 other (NameMap.mem_values.mpr ⟨name, hother⟩)

theorem Record.validateStandalone_advance (h : record.validateStandalone sha256 request = .ok ()) :
    (record.advance place fresh).validateStandalone sha256 request = .ok () := by
  have hfacts := advanceAt_facts place fresh
  unfold Record.validateStandalone at h ⊢
  have horiginal : (record.advance place fresh).originalReceipt = record.originalReceipt := rfl
  rw [horiginal]
  cases hreceipt : record.originalReceipt with
  | none =>
    rw [hreceipt] at h
    simp only [then_eq_ok] at h
    cases h.2
  | some receipt =>
    rw [hreceipt] at h
    simp only [bind_eq_ok, ensure_eq_ok, forEach_eq_ok, Record.get_advance,
      Option.isSome_map] at h ⊢
    obtain ⟨_, hpackage, _, hvalid, same, hsame, _, htrue, _, hmandatory, _, hpayloads, _,
      hidentity, h⟩ := h
    refine ⟨(), hpackage, (), hvalid, same, hsame, (), htrue, (), ?_, (),
      fun name hname => Record.validatePayload_advance (hpayloads name hname), (), ?_, ?_⟩
    · have hlength : (record.advance place fresh).leaves.length = record.leaves.length :=
        NameMap.length_map _
      rw [hlength]
      exact hmandatory
    · intro leaf hleaf
      obtain ⟨other, hother, rfl⟩ := Option.map_eq_some_iff.mp hleaf
      rw [(hfacts executableName other).1]
      exact hidentity other hother
    · by_cases hkind : request.kind = .install ∨ request.kind = .selfUpdate
      · rw [if_pos hkind] at h ⊢
        exact Record.validateReplacement_advance h
      · rw [if_neg hkind] at h ⊢
        exact Record.validateRemoval_advance h

theorem Record.changedLeaves_advance (place : Chars) (fresh : Identity) (record : Record) :
    (record.advance place fresh).changedLeaves record ≤ 1 := by
  have hzip : (record.advance place fresh).leaves.entries.zip record.leaves.entries =
      record.leaves.entries.map fun entry =>
        ((entry.1, advanceAt place fresh entry.1 entry.2), entry) := by
    have hpairs := @List.zip_map' _ _ _
      (fun entry : Chars × Leaf => (entry.1, advanceAt place fresh entry.1 entry.2)) id
      record.leaves.entries
    rwa [List.map_id] at hpairs
  unfold Record.changedLeaves
  rw [hzip, List.countP_map]
  calc record.leaves.entries.countP _
      ≤ record.leaves.entries.countP fun entry => entry.1 == place := by
        refine List.countP_mono_left fun entry _ hchanged => ?_
        by_contra hname
        rw [beq_iff_eq] at hname
        have hsame : advanceAt place fresh entry.1 entry.2 = entry.2 := if_neg hname
        simp [hsame] at hchanged
    _ = record.leaves.keys.count place := by
        unfold NameMap.keys List.count
        rw [List.countP_map]
        rfl
    _ ≤ 1 := List.nodup_iff_count_le_one.mp record.leaves.nodup_keys place

theorem validatePathStep_self (others : Bool) (path : Option PathEdit) :
    validatePathStep others path path = .ok () := by
  cases path with
  | none => rfl
  | some path =>
    unfold validatePathStep
    simp only [then_eq_ok, ensure_eq_ok]
    simp

theorem validateBoundCompletion_self {record previous : Record}
    (hcompletion : record.completion = previous.completion)
    (hidentity : record.completionIdentity = previous.completionIdentity) :
    validateBoundCompletion record previous = .ok () := by
  unfold validateBoundCompletion
  split
  · exact ensure_eq_ok.mpr ⟨hcompletion, hidentity⟩
  next hnone =>
  rw [ensure_eq_ok, hcompletion]
  exact fun hsome => absurd hsome hnone

/-- A service record outside of the ordered phases may be written again. -/
theorem ServiceRestoreRecord.validateSuccessor_self {current : ServiceRestoreRecord}
    (hvalid : current.validateForSid current.sid = .ok ())
    (hshape : current.transitionShape = true) : current.validateSuccessor current = .ok () := by
  have horiginal : current.sameOriginal current = true := by
    unfold ServiceRestoreRecord.sameOriginal
    have hroles : ∀ roles : List RestoreRole,
        ((roles.zip roles).all fun pair => pair.1.sameOriginal pair.2) = true := by
      intro roles
      induction roles with
      | nil => rfl
      | cons role roles ih =>
        rw [List.zip_cons_cons, List.all_cons, ih, Bool.and_true]
        simp [RestoreRole.sameOriginal]
    simp [hroles]
  unfold ServiceRestoreRecord.validateSuccessor validateTransitionShape
  simp only [then_eq_ok, ensure_eq_ok]
  exact ⟨hvalid, hvalid, hshape, hshape, horiginal, if_pos trivial⟩

/-- While a file is not restored, no task is. -/
theorem Record.Valid.not_isRestoring {original current : ServiceRestoreRecord}
    (h : record.Valid sha256 request digest original current)
    (hrolling : record.phase = .rollingBack)
    (hmem : leaf ∈ record.leaves.values) (hphase : leaf.phase ≠ .rolledBack) :
    current.phase.isRestoring = false := by
  by_contra hrestoring
  rw [Bool.not_eq_false] at hrestoring
  have hnext := h.next
  unfold Record.validateNextBinding Record.nextBinding at hnext
  rw [if_pos hrestoring, hrolling] at hnext
  obtain ⟨_, hbinding, -⟩ := bind_eq_ok.mp hnext
  obtain ⟨hall, -⟩ := then_eq_ok.mp hbinding
  exact hphase (ensure_eq_ok.mp hall leaf hmem)

/-- **The checks accept the step forward.** -/
theorem Record.validate_advance {original current : ServiceRestoreRecord}
    (h : record.Valid sha256 request digest original current)
    (hrolling : record.phase = .rollingBack)
    (hsequence : record.sequence < 127) (hmem : (place, leaf) ∈ record.leaves.entries)
    (hadvances : leaf.advances = true) (hvalid : fresh.validate = .ok ())
    (hfresh : fresh ∉ record.originals ++ record.backups ++ record.createds ++ record.restoreds) :
    (record.advance place fresh).validate sha256 (some record) request digest = .ok () := by
  have hvalue : leaf ∈ record.leaves.values := NameMap.mem_values.mpr ⟨place, hmem⟩
  have hrestored : leaf.phase ≠ .rolledBack := by
    intro hphase
    have hrequired := (Leaf.phases_of_advances hadvances).1
    rw [hphase] at hrequired
    cases hrequired
  have hstill := h.not_isRestoring hrolling hvalue hrestored
  -- so the service record is one of those that may be written again
  have hshape : current.transitionShape = true := by
    have hallows := h.allows
    unfold ServiceRestoreRecord.transitionShape
    rw [hrolling] at hallows
    cases hphase : current.phase <;> rw [hphase] at hallows hstill <;>
      first | rfl | exact absurd hstill (by decide) | exact absurd hallows (by decide)
  have hservice := h.service
  have hcurrent : current.validateForSid current.sid = .ok () := by
    unfold Record.validateService at hservice
    have hvalid := (then_eq_ok.mp (then_eq_ok.mp hservice).2).1
    have hchecked := hvalid
    unfold ServiceRestoreRecord.validateForSid at hchecked
    have hsid : current.sid = request.sid := (ensure_eq_ok.mp (then_eq_ok.mp hchecked).1).2.1
    rwa [hsid]
  have hstandalone : ¬ request.kind.maintenance = true := by
    intro hkind
    rw [h.noLeaves hkind] at hmem
    cases hmem
  have hstocked : (record.advance place fresh).Stocked sha256 request := by
    refine ⟨?_, ?_, validateIdentities_eq_ok.mpr
      (Record.distinct_advance h.distinct hmem hadvances hvalid hfresh), h.stocked.completion,
      h.stocked.path⟩
    · intro name hname
      exact h.stocked.names name (NameMap.keys_map (advanceAt place fresh) ▸ hname)
    · have hchannel := h.stocked.channel
      unfold Record.validateChannel at hchannel ⊢
      rw [if_neg hstandalone] at hchannel ⊢
      exact Record.validateStandalone_advance hchannel
  refine validate_eq_ok.mpr ⟨original, current, ⟨h.asked, ?_, h.originalService, h.currentService,
    hservice, validateInventory_eq_ok.mpr hstocked, ?_, h.allows, ?_⟩, current, ?_⟩
  · obtain ⟨h₁, h₂, h₃, h₄, h₅, h₆, h₇, -⟩ := h.bound
    refine ⟨h₁, h₂, h₃, h₄, h₅, h₆, h₇, ?_⟩
    show record.sequence + 1 < 128
    omega
  · unfold Record.validateNextBinding
    rw [if_neg (by rw [hstill]; decide)]
    rfl
  · have hphases := h.phases
    unfold Record.validateLeafPhases at hphases ⊢
    refine then_eq_ok.mpr ⟨?_, (then_eq_ok.mp hphases).2⟩
    unfold Record.validateFiles
    rw [show (record.advance place fresh).phase = .rollingBack from hrolling]
    rfl
  · have hkeys : (record.advance place fresh).leaves.keys = record.leaves.keys := NameMap.keys_map _
    refine ⟨rfl, ⟨rfl, rfl, rfl, rfl, rfl, rfl, rfl, rfl, rfl, rfl, hkeys⟩, h.currentService,
      ServiceRestoreRecord.validateSuccessor_self hcurrent hshape,
      validateBoundCompletion_self rfl rfl, Or.inl ⟨rfl, ?_⟩, ?_,
      ⟨record.changedLeaves_advance place fresh, Or.inr rfl, Or.inl rfl⟩, validatePathStep_self _ _⟩
    · rw [show (record.advance place fresh).phase = .rollingBack from hrolling]
      rfl
    · rintro ⟨⟨name, leaf'⟩, ⟨name', old⟩⟩ hpair
      obtain ⟨hentry, hold, hname⟩ := (NameMap.mem_zip_iff hkeys).mp hpair
      obtain rfl : name = name' := hname
      obtain ⟨other, hother, heq⟩ := NameMap.mem_entries_map.mp hentry
      obtain rfl : leaf' = advanceAt place fresh name other := heq
      obtain rfl : other = old :=
        Option.some.inj ((NameMap.get_eq_some.mpr hother).symm.trans (NameMap.get_eq_some.mpr hold))
      refine Leaf.validateSuccessor_eq_ok.mpr ?_
      have hsound : other.Sound name := Leaf.validate_eq_ok.mp (h.distinct.leaves _ hother)
      show (advanceAt place fresh name other).Follows other
      unfold advanceAt
      by_cases hplace : name = place
      · subst hplace
        obtain rfl : other = leaf :=
          Option.some.inj ((NameMap.get_eq_some.mpr hother).symm.trans
            (NameMap.get_eq_some.mpr hmem))
        rw [if_pos rfl]
        exact Leaf.follows_advanced hsound hadvances
      · rw [if_neg hplace]
        exact ⟨⟨rfl, rfl⟩, Or.inr rfl, Or.inr rfl, Or.inr rfl, Or.inl rfl⟩

end Advance

/-! ## The records from which every step is safe -/

/-- The identities of a record, at most four for each file. -/
theorem Record.length_identities_le (record : Record) :
    (record.originals ++ record.backups ++ record.createds ++ record.restoreds).length ≤
      4 * record.leaves.length := by
  have hvalues : record.leaves.values.length = record.leaves.length := List.length_map _
  have horiginals : record.originals.length = record.leaves.values.length := List.length_map _
  have hbackups := List.length_filterMap_le (fun leaf : Leaf => leaf.backup.map (·.identity))
    record.leaves.values
  have hcreateds := List.length_filterMap_le Leaf.created record.leaves.values
  have hrestoreds := List.length_filterMap_le Leaf.rollback record.leaves.values
  change record.backups.length ≤ _ at hbackups
  change record.createds.length ≤ _ at hcreateds
  change record.restoreds.length ≤ _ at hrestoreds
  simp only [List.length_append]
  omega

theorem Record.Valid.length_leaves_le {record : Record} {original current : ServiceRestoreRecord}
    (h : record.Valid sha256 request digest original current) : record.leaves.length ≤ 7 := by
  have hchannel := h.stocked.channel
  unfold Record.validateChannel at hchannel
  by_cases hkind : request.kind.maintenance = true
  · have hnone : record.leaves.length = 0 := by
      unfold NameMap.length
      rw [h.noLeaves hkind]
      rfl
    omega
  · rw [if_neg hkind] at hchannel
    unfold Record.validateStandalone at hchannel
    obtain ⟨-, hreceipt⟩ := then_eq_ok.mp hchannel
    split at hreceipt
    · cases hreceipt
    obtain ⟨-, hreceipt⟩ := then_eq_ok.mp hreceipt
    obtain ⟨_, -, hreceipt⟩ := bind_eq_ok.mp hreceipt
    obtain ⟨-, hreceipt⟩ := then_eq_ok.mp hreceipt
    obtain ⟨hmandatory, -⟩ := then_eq_ok.mp hreceipt
    exact (ensure_eq_ok.mp hmandatory).2.2.1

/-- **A record has safe successors only exactly if it is calm**: while a transaction is rolling
back, every file that has not gone all the way forward and is not being restored may still take its
step forward. -/
theorem safe_iff_calm {record : Record} {history : List Record}
    (h : Written sha256 request digest (record :: history)) :
    (∀ next : Record, next.validate sha256 (some record) request digest = .ok () →
      Safe next record history) ↔ Calm record := by
  constructor
  · intro hsafe hrolling hsequence leaf hvalue
    by_contra hadvances
    rw [Bool.not_eq_false] at hadvances
    obtain ⟨original, current, hvalid⟩ := h.valid record List.mem_cons_self
    obtain ⟨place, hmem⟩ := NameMap.mem_values.mp hvalue
    have hfew := hvalid.length_leaves_le
    have hused := record.length_identities_le
    obtain ⟨fresh, hfresh, hunused⟩ := @exists_fresh
      (record.originals ++ record.backups ++ record.createds ++ record.restoreds) (by omega)
    have haccepted := Record.validate_advance hvalid hrolling hsequence hmem hadvances hfresh
      hunused
    -- the step is one forward
    have hentry : (place, leaf.advanced fresh) ∈ (record.advance place fresh).leaves.entries :=
      NameMap.mem_entries_map.mpr ⟨leaf, hmem, (if_pos rfl).symm⟩
    obtain ⟨hforward, hne⟩ := @Leaf.advanced_forward fresh leaf hadvances
    have hstays := (hsafe _ haccepted).retreats ⟨record, List.mem_cons_self, hrolling⟩ place _ leaf
      hentry hmem hne
    cases hforward.symm.trans hstays
  · intro hcalm next hnext
    exact safe_of_calm (.next h hnext) hcalm

/-! ### A removal that is withdrawn -/

/-- The replacement digests play no role in a removal. -/
theorem Record.validate_removal {sha256' : Chars → Chars} (hkind : request.kind = .uninstall)
    (record : Record) (previous : Option Record) :
    record.validate sha256 previous request digest =
      record.validate sha256' previous request digest := by
  have hstandalone : record.validateStandalone sha256 request =
      record.validateStandalone sha256' request := by
    unfold Record.validateStandalone
    simp only [hkind, reduceCtorEq, or_self, if_false]
  have hchannel : record.validateChannel sha256 request =
      record.validateChannel sha256' request := by
    unfold Record.validateChannel
    rw [hstandalone]
  unfold Record.validate Record.validateInventory
  rw [hchannel]

namespace Removal

def hash (c : Char) : Chars := List.replicate 64 c

def identity (c : Char) : Identity := ⟨List.replicate 16 '0', List.replicate 32 c⟩

def asked : Request where
  schema := "locron.windows-operation/v1".toList
  operationId := "11111111-1111-1111-1111-111111111111".toList
  kind := .uninstall
  sid := "S-1-5-21-1".toList
  executable := "C:\\locron\\locron.exe".toList
  target := "x86_64-pc-windows-msvc".toList
  version := "1.0.0".toList
  archiveSha256 := hash 'a'
  helperSha256 := hash 'b'
  callerPid := none
  noService := false
  dashboard := false
  addToPath := false
  stateRoot := none
  package := none
  archiveFile := none

def receipt : Receipt where
  schema := "locron.install/windows-v1".toList
  sid := asked.sid
  channel := "standalone".toList
  directory := "C:\\locron".toList
  executable := asked.executable
  target := asked.target
  version := asked.version
  archiveUrl := releaseUrl asked.version asked.target
  archiveSha256 := hash 'a'
  binarySha256 := hash 'c'
  files := ⟨[(".locron-installer.ps1".toList, hash 'd'), ("LICENSE-APACHE".toList, hash 'd'),
    ("LICENSE-MIT".toList, hash 'd'), ("README.md".toList, hash 'd'),
      ("locron.exe".toList, hash 'c'),
    ("uninstall.ps1".toList, hash 'd')], by decide +kernel⟩
  userPath := none

def service (phase : RestorePhase) : ServiceRestoreRecord :=
  ⟨1, asked.sid, ⟨asked.executable, (identity 'a').volume, (identity 'a').file⟩, [], phase, none,
    []⟩

def program : Content := ⟨1000, hash 'c'⟩

/-- The record of a removal, by what is known of the receipt and of the program. -/
def removalRecord (sequence : Nat) (phase : Phase) (restore : RestorePhase)
    (receipt file : LeafPhase × Option FileFact) : Record where
  schema := schemaName
  operationId := asked.operationId
  kind := .uninstall
  protectedRequestSha256 := hash 'e'
  sequence := sequence
  phase := phase
  originalExecutable := identity 'a'
  originalService := some (service .snapshot)
  currentService := some (service restore)
  originalReceipt := some Removal.receipt
  newReceipt := none
  originalPackage := none
  completion := none
  completionIdentity := none
  leaves := ⟨[(receiptName, ⟨⟨identity 'b', ⟨500, hash 'f'⟩⟩, none, receipt.2, none, none,
    receipt.1⟩), (executableName, ⟨⟨identity 'a', program⟩, none, file.2, none, none, file.1⟩)],
    show [receiptName, executableName].Pairwise (· < ·) by decide +kernel⟩
  retained := ⟨[(".locron-installer.ps1".toList, .changed), ("LICENSE-APACHE".toList, .changed),
    ("LICENSE-MIT".toList, .changed), ("README.md".toList, .changed),
    ("uninstall.ps1".toList, .changed)], by decide +kernel⟩
  pathEdit := none

def copy : FileFact := ⟨identity 'c', program⟩

def receiptCopy : FileFact := ⟨identity 'd', ⟨500, hash 'f'⟩⟩

/-- Both files are copied, and the program is about to be deleted. -/
def removing : List Record :=
  [removalRecord 10 .removing .quiescent (.backedUp, some receiptCopy) (.deleteIntent, some copy),
    removalRecord 9 .removing .quiescent (.backedUp, some receiptCopy) (.backedUp, some copy),
    removalRecord 8 .ready .quiescent (.backedUp, some receiptCopy) (.backedUp, some copy),
    removalRecord 7 .quiescing .quiescent (.backedUp, some receiptCopy) (.backedUp, some copy),
    removalRecord 6 .quiescing .snapshot (.backedUp, some receiptCopy) (.backedUp, some copy),
    removalRecord 5 .backingUp .snapshot (.backedUp, some receiptCopy) (.backedUp, some copy),
    removalRecord 4 .backingUp .snapshot (.backupIntent, none) (.backedUp, some copy),
    removalRecord 3 .backingUp .snapshot (.original, none) (.backedUp, some copy),
    removalRecord 2 .backingUp .snapshot (.original, none) (.backupIntent, none),
    removalRecord 1 .backingUp .snapshot (.original, none) (.original, none),
    removalRecord 0 .accepted .snapshot (.original, none) (.original, none)]

/-- The program is gone. -/
def removed : Record :=
  removalRecord 11 .removing .quiescent (.backedUp, some receiptCopy) (.absent, some copy)

/-- A record of which the receipt has no backup. -/
def record (sequence : Nat) (phase : Phase) (file : LeafPhase) (backup : Option FileFact) :
    Record :=
  removalRecord sequence phase .snapshot (.original, none) (file, backup)

/-- The program is copied, then the transaction turns back. -/
def journal : List Record :=
  [record 4 .rollingBack .backedUp (some copy), record 3 .backingUp .backedUp (some copy),
    record 2 .backingUp .backupIntent none, record 1 .backingUp .original none,
    record 0 .accepted .original none]

def deletion : Record := record 5 .rollingBack .deleteIntent (some copy)

def chained : List Record → Bool
  | [] => false
  | record :: history =>
    decide (record.validate (fun _ => []) history.head? asked (hash 'e') = .ok ()) &&
      (history.isEmpty || chained history)

theorem written_of_chained {history : List Record} (h : chained history = true) :
    Written sha256 asked (hash 'e') history := by
  induction history with
  | nil => cases h
  | cons record history ih =>
    unfold chained at h
    obtain ⟨haccepted, hhistory⟩ := (Bool.and_eq_true _ _).mp h
    have hvalid : record.validate sha256 history.head? asked (hash 'e') = .ok () :=
      (Record.validate_removal rfl record _).trans (of_decide_eq_true haccepted)
    cases history with
    | nil => exact .first hvalid
    | cons previous history => exact .next (ih hhistory) hvalid

end Removal

theorem safe_iff_calm_removal : ∃ record history,
    record :: history = Removal.removing ∧
      Written (fun _ => []) Removal.asked (Removal.hash 'e') (record :: history) ∧
      Removal.removed.validate (fun _ => []) (some record) Removal.asked (Removal.hash 'e')
        = .ok () ∧
      ∀ next : Record, next.validate (fun _ => []) (some record) Removal.asked (Removal.hash 'e')
        = .ok () → Safe next record history :=
  have hwritten := @Removal.written_of_chained _ Removal.removing (by decide +kernel)
  ⟨_, _, rfl, hwritten, by decide +kernel, (safe_iff_calm hwritten).mpr (by decide)⟩

/-- The program may be deleted although the transaction is rolling back and the receipt has no
backup. -/
theorem deletes_while_rollingBack :
    (∀ sha256 : Chars → Chars,
      Written sha256 Removal.asked (Removal.hash 'e') (Removal.deletion :: Removal.journal)) ∧
    ¬ Safe Removal.deletion (Removal.record 4 .rollingBack .backedUp (some Removal.copy))
      Removal.journal.tail := by
  constructor
  · exact fun _ => Removal.written_of_chained (by decide +kernel)
  · intro hsafe
    obtain ⟨hbackups, -⟩ := hsafe.deletes executableName
      ⟨⟨Removal.identity 'a', Removal.program⟩, none, some Removal.copy, none, none, .deleteIntent⟩
      ⟨⟨Removal.identity 'a', Removal.program⟩, none, some Removal.copy, none, none, .backedUp⟩
      (by decide +kernel) (by decide +kernel) rfl (by decide)
    have hreceipt := hbackups
      ⟨⟨Removal.identity 'b', ⟨500, Removal.hash 'f'⟩⟩, none, none, none, none, .original⟩
      (by decide +kernel)
    cases hreceipt

end Locron.Windows
