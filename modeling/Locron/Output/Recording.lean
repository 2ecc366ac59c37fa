import Locron.Output.Writer

set_option autoImplicit false

/-! # The output of a run while it is written

The attempts of a run write their output files one after the other: a partial file is created,
grows, and is renamed once it is complete; then the outcome of the attempt is committed, and the
next attempt is started or the run has ended. A reader that opens a file meanwhile finds the
complete frames of what is visible of it (`RunOutput.readFrames_file`).
-/

namespace Locron

/-- What the attempts of a run write, all in all. There are at most ten retries. -/
structure RunOutput where
  attempts : Nat
  logs : Nat → List Frame
  valid : ∀ n, frameCodec.ValidFrom 0 (logs n)
  bounded : ∀ n, (outputMagic ++ frameCodec.encodeAll (logs n)).length ≤ u64Max
  started : 0 < attempts
  few : attempts ≤ 11

/-- The output file of an attempt: what is visible of the partial file only grows. -/
inductive AttemptFile where
  | absent
  | growing (visible : Nat)
  | final
deriving DecidableEq, Repr

/-- The attempt that is on, with its file, and whether its outcome is committed. Before the first
one there is nothing to wait for. -/
structure Recording where
  number : Nat
  file : AttemptFile
  committed : Bool
deriving DecidableEq, Repr

inductive WriteAction where
  | create
  | append (visible : Nat)
  | rename
  | commit
  | start
deriving DecidableEq, Repr

namespace RunOutput

variable (out : RunOutput)

/-- The complete file of an attempt. -/
def log (n : Nat) : List UInt8 := outputMagic ++ frameCodec.encodeAll (out.logs n)

def size (n : Nat) : Nat := (out.log n).length

/-- What a reader finds when so much of the file is visible. -/
def file (n visible : Nat) : OutputFile :=
  ⟨(out.log n).take visible, le_trans (List.length_take_le' visible _) (out.bounded n)⟩

/-- The frames that lie in the visible part of the file. -/
def available (n visible : Nat) : List Frame :=
  if visible < 8 then [] else frameCodec.within (visible - 8) (out.logs n)

end RunOutput

namespace Recording

variable (out : RunOutput)

def initial : Recording := ⟨0, .final, true⟩

def write (r : Recording) : WriteAction → Option Recording
  | .create => if r.file = .absent then some { r with file := .growing 0 } else none
  | .append visible =>
    match r.file with
    | .growing before =>
      if before ≤ visible ∧ visible ≤ out.size r.number then
        some { r with file := .growing visible }
      else none
    | _ => none
  | .rename =>
    -- the file is flushed before
    if r.file = .growing (out.size r.number) then some { r with file := .final } else none
  | .commit =>
    if r.file = .final ∧ r.committed = false then some { r with committed := true } else none
  | .start =>
    if r.committed = true ∧ r.number < out.attempts then some ⟨r.number + 1, .absent, false⟩
    else none

/-- The run has ended. -/
def terminal (r : Recording) : Bool := r.committed && r.number = out.attempts

/-- The complete file of the attempt is there. -/
def isFinal (r : Recording) (n : Nat) : Bool :=
  0 < n && (n < r.number || (n = r.number && r.file = .final))

/-- How much of the partial file of the attempt is visible, if there is one. -/
def growing? (r : Recording) (n : Nat) : Option Nat :=
  if n = r.number then match r.file with | .growing visible => some visible | _ => none else none

/-- How much of the output of the attempt is visible, under whatever name. -/
def visible (r : Recording) (n : Nat) : Nat :=
  if r.isFinal n then out.size n else (r.growing? n).getD 0

end Recording

/-! ## What readers find -/

namespace RunOutput

variable (out : RunOutput)

theorem eight_le_size (n : Nat) : 8 ≤ out.size n := by
  unfold size log
  rw [List.length_append]
  exact Nat.le_add_right 8 _

/-- What is visible behind the header. -/
theorem bytes_file {n visible : Nat} (h : 8 ≤ visible) :
    (out.file n visible).bytes
      = outputMagic ++ (frameCodec.encodeAll (out.logs n)).take (visible - 8) := by
  show (outputMagic ++ frameCodec.encodeAll (out.logs n)).take visible = _
  rw [List.take_append, List.take_of_length_le (show outputMagic.length ≤ visible from h)]
  rfl

theorem checkMagic_of_short {n visible : Nat} (h : visible < 8) (message : String) :
    checkMagic message (out.file n visible).bytes = .error .unexpectedEof := by
  have hshort : (out.file n visible).bytes.length < 8 :=
    lt_of_le_of_lt (List.length_take_le visible _) h
  unfold checkMagic
  rw [Bytes.readExact_eq_none.mpr hshort]

/-- What is left of a log after its complete frames begins with a channel that exists. -/
theorem not_unknownChannel_of_prefix {frames : List Frame} {tail : List UInt8}
    (h : tail <+: frameCodec.encodeAll frames) : ¬ unknownChannel tail := by
  rintro ⟨hlength, hunknown⟩
  cases frames with
  | nil =>
    rw [List.prefix_nil.mp h] at hlength
    exact absurd hlength (by decide)
  | cons f frames =>
    cases tail with
    | nil => exact absurd hlength (by decide)
    | cons b tail =>
      have hhead : b = f.channel.code := by
        obtain ⟨rest, hrest⟩ := h
        exact List.head_eq_of_cons_eq hrest
      rw [List.headD_cons, hhead, Channel.ofCode_code] at hunknown
      cases hunknown

theorem frames_file {n visible : Nat} (h : 8 ≤ visible) :
    (out.file n visible).Headed ∧ (out.file n visible).frames = out.available n visible ∧
      ¬ unknownChannel (out.file n visible).tail := by
  obtain ⟨hheaded, hframes, htail⟩ := OutputFile.frames_of_take (out.valid n) (out.bytes_file h)
  refine ⟨hheaded, ?_, ?_⟩
  · rw [hframes, available, if_neg (not_lt.mpr h)]
  obtain ⟨rest, hrest⟩ := frameCodec.within_prefix (visible - 8) (out.logs n)
  have hinitial : (frameCodec.encodeAll (out.logs n)).take (visible - 8)
      <+: frameCodec.encodeAll (out.logs n) := List.take_prefix _ _
  conv_rhs at hinitial => rw [← hrest, Framing.Codec.encodeAll_append]
  rw [htail] at hinitial
  exact not_unknownChannel_of_prefix ((List.prefix_append_right_inj _).mp hinitial)

/-- **The log commands find the frames that are visible.** -/
theorem readFrames_file (n visible : Nat) :
    Engine.readFrames (out.file n visible)
      = if visible < 8 then .error .unexpectedEof else .ok (out.available n visible) := by
  unfold Engine.readFrames
  by_cases h : visible < 8
  · unfold Engine.scanValidFrames
    rw [out.checkMagic_of_short h, if_pos h]
  · obtain ⟨hheaded, hframes, hknown⟩ := out.frames_file (n := n) (not_lt.mp h)
    rw [Engine.scanValidFrames_eq hheaded, if_neg hknown, if_neg h, hframes]

/-- **The stream finds the frames that are visible.** -/
theorem readAvailableFrames_file (n visible : Nat) :
    readAvailableFrames (out.file n visible)
      = if visible < 8 then .error .unexpectedEof else .ok (out.available n visible) := by
  by_cases h : visible < 8
  · unfold readAvailableFrames readMagic
    rw [out.checkMagic_of_short h, if_pos h]
  · obtain ⟨hheaded, hframes, -⟩ := out.frames_file (n := n) (not_lt.mp h)
    rw [readAvailableFrames_eq hheaded, if_neg h, hframes]

theorem available_prefix (n visible : Nat) : out.available n visible <+: out.logs n := by
  unfold available
  split
  · exact List.nil_prefix
  · exact frameCodec.within_prefix _ _

theorem available_eq_take (n visible : Nat) :
    out.available n visible = (out.logs n).take (out.available n visible).length :=
  List.prefix_iff_eq_take.mp (out.available_prefix n visible)

theorem available_size (n : Nat) : out.available n (out.size n) = out.logs n := by
  have hsize : out.size n - 8 = (frameCodec.encodeAll (out.logs n)).length := by
    unfold size log
    rw [List.length_append]
    exact Nat.add_sub_cancel_left 8 _
  rw [available, if_neg (not_lt.mpr (out.eight_le_size n)), hsize]
  exact frameCodec.within_self _ (le_refl _)

theorem available_mono {n visible visible' : Nat} (h : visible ≤ visible') :
    (out.available n visible).length ≤ (out.available n visible').length := by
  unfold available
  by_cases hshort : visible < 8
  · rw [if_pos hshort]
    exact Nat.zero_le _
  · rw [if_neg hshort, if_neg (by omega)]
    exact frameCodec.within_mono (by omega) _

end RunOutput

/-! ## The recording only grows -/

namespace Recording

variable {out : RunOutput} {r r' : Recording}

/-- The invariant of a recording: what is visible lies in the file, and only complete output is
committed. -/
structure Sound (out : RunOutput) (r : Recording) : Prop where
  number : r.number ≤ out.attempts
  fits : ∀ visible, r.file = .growing visible → visible ≤ out.size r.number
  committed : r.committed = true → r.file = .final
  begun : r.number = 0 → r.file = .final

theorem sound_initial (out : RunOutput) : Sound out initial :=
  ⟨Nat.zero_le _, fun _ h => (by cases h), fun _ => rfl, fun _ => rfl⟩

/-- What a reader has seen of a recording stays. -/
structure Grows (out : RunOutput) (r r' : Recording) : Prop where
  number : r.number ≤ r'.number
  final : ∀ n, r.isFinal n = true → r'.isFinal n = true
  visible : ∀ n, r.visible out n ≤ r'.visible out n
  terminal : r.terminal out = true → r'.terminal out = true

theorem isFinal_iff {n : Nat} :
    r.isFinal n = true ↔ 0 < n ∧ (n < r.number ∨ n = r.number ∧ r.file = .final) := by
  simp [isFinal]

theorem isFinal_eq_false_iff {n : Nat} :
    r.isFinal n = false ↔ n = 0 ∨ r.number < n ∨ (n = r.number ∧ r.file ≠ .final) := by
  rw [← Bool.not_eq_true, isFinal_iff]
  constructor
  · intro h
    by_cases hfile : r.file = .final <;> simp only [hfile] at h ⊢ <;> grind
  · grind

theorem visible_of_final {n : Nat} (h : r.isFinal n = true) : r.visible out n = out.size n :=
  if_pos h

theorem visible_of_not_final {n : Nat} (h : r.isFinal n = false) :
    r.visible out n = (r.growing? n).getD 0 :=
  if_neg (by rw [h]; exact Bool.false_ne_true)

theorem write_cases {a : WriteAction} (h : r.write out a = some r') :
    (a = .create ∧ r.file = .absent ∧ r' = { r with file := .growing 0 }) ∨
    (∃ before visible, a = .append visible ∧ r.file = .growing before ∧ before ≤ visible ∧
      visible ≤ out.size r.number ∧ r' = { r with file := .growing visible }) ∨
    (a = .rename ∧ r.file = .growing (out.size r.number) ∧ r' = { r with file := .final }) ∨
    (a = .commit ∧ r.file = .final ∧ r' = { r with committed := true }) ∨
    (a = .start ∧ r.committed = true ∧ r.number < out.attempts ∧
      r' = ⟨r.number + 1, .absent, false⟩) := by
  cases a with
  | create =>
    obtain ⟨hfile, h⟩ := Option.ite_none_right_eq_some.mp h
    exact Or.inl ⟨rfl, hfile, (Option.some.inj h).symm⟩
  | append visible =>
    simp only [write] at h
    split at h
    · next before hfile =>
      obtain ⟨⟨hle, hsize⟩, h⟩ := Option.ite_none_right_eq_some.mp h
      exact Or.inr (Or.inl ⟨before, visible, rfl, hfile, hle, hsize, (Option.some.inj h).symm⟩)
    · cases h
  | rename =>
    obtain ⟨hfile, h⟩ := Option.ite_none_right_eq_some.mp h
    exact Or.inr (Or.inr (Or.inl ⟨rfl, hfile, (Option.some.inj h).symm⟩))
  | commit =>
    obtain ⟨⟨hfile, -⟩, h⟩ := Option.ite_none_right_eq_some.mp h
    exact Or.inr (Or.inr (Or.inr (Or.inl ⟨rfl, hfile, (Option.some.inj h).symm⟩)))
  | start =>
    obtain ⟨⟨hcommitted, hnumber⟩, h⟩ := Option.ite_none_right_eq_some.mp h
    exact Or.inr (Or.inr (Or.inr (Or.inr ⟨rfl, hcommitted, hnumber, (Option.some.inj h).symm⟩)))

theorem Sound.write {a : WriteAction} (h : r.Sound out) (hwrite : r.write out a = some r') :
    r'.Sound out := by
  rcases write_cases hwrite with ⟨-, hfile, rfl⟩ | ⟨before, visible, -, hfile, -, hsize, rfl⟩ |
    ⟨-, -, rfl⟩ | ⟨-, hfile, rfl⟩ | ⟨-, -, hnumber, rfl⟩
  · refine ⟨h.number, ?_, fun hcommitted => ?_, fun hzero => ?_⟩
    · rintro visible ⟨⟩
      exact Nat.zero_le _
    · rw [h.committed hcommitted] at hfile
      cases hfile
    · rw [h.begun hzero] at hfile
      cases hfile
  · refine ⟨h.number, ?_, fun hcommitted => ?_, fun hzero => ?_⟩
    · rintro visible ⟨⟩
      exact hsize
    · rw [h.committed hcommitted] at hfile
      cases hfile
    · rw [h.begun hzero] at hfile
      cases hfile
  · exact ⟨h.number, fun _ hgrowing => (by cases hgrowing), fun _ => rfl, fun _ => rfl⟩
  · exact ⟨h.number, h.fits, fun _ => hfile, h.begun⟩
  · exact ⟨hnumber, fun _ hgrowing => (by cases hgrowing), fun hcommitted => (by cases hcommitted),
      fun hzero => absurd hzero (Nat.succ_ne_zero _)⟩

/-- A file becomes complete only by its renaming. -/
theorem isFinal_of_write {a : WriteAction} {n : Nat} (hwrite : r.write out a = some r')
    (hsound : r.Sound out) (hbefore : r.isFinal n = false) (hafter : r'.isFinal n = true) :
    a = .rename ∧ n = r.number := by
  rw [isFinal_iff] at hafter
  rw [isFinal_eq_false_iff] at hbefore
  rcases write_cases hwrite with ⟨-, hfile, rfl⟩ | ⟨before, visible, -, hfile, -, hsize, rfl⟩ |
    ⟨rfl, -, rfl⟩ | ⟨-, hfile, rfl⟩ | ⟨-, hcommitted, hnumber, rfl⟩
  · grind
  · grind
  · exact ⟨rfl, by grind⟩
  · grind
  · have := hsound.committed hcommitted
    grind

theorem Sound.visible_le (h : r.Sound out) (n : Nat) : r.visible out n ≤ out.size n := by
  unfold visible growing?
  split
  · exact le_refl _
  split
  · next hn =>
    split
    · next visible hfile =>
      rw [hn]
      exact h.fits visible hfile
    · exact Nat.zero_le _
  · exact Nat.zero_le _

/-- **What is recorded stays recorded.** -/
theorem Grows.of_write {a : WriteAction} (hsound : r.Sound out) (hwrite : r.write out a = some r') :
    Grows out r r' := by
  have hfinal : ∀ n, r.isFinal n = true → r'.isFinal n = true := by
    intro n hn
    rw [isFinal_iff] at hn ⊢
    rcases write_cases hwrite with ⟨-, hfile, rfl⟩ | ⟨before, visible, -, hfile, -, -, rfl⟩ |
      ⟨-, hfile, rfl⟩ | ⟨-, hfile, rfl⟩ | ⟨-, hcommitted, -, rfl⟩ <;> grind
  refine ⟨?_, hfinal, fun n => ?_, fun hterminal => ?_⟩
  · rcases write_cases hwrite with ⟨-, -, rfl⟩ | ⟨_, _, -, -, -, -, rfl⟩ | ⟨-, -, rfl⟩ |
      ⟨-, -, rfl⟩ | ⟨-, -, -, rfl⟩
    all_goals first | exact le_refl _ | exact Nat.le_succ _
  · cases hafter : r'.isFinal n with
    | true =>
      rw [visible_of_final hafter]
      exact hsound.visible_le n
    | false =>
      have hbefore : r.isFinal n = false := by
        cases hn : r.isFinal n with
        | false => rfl
        | true => exact absurd (hfinal n hn) (by rw [hafter]; exact Bool.false_ne_true)
      rw [visible_of_not_final hafter, visible_of_not_final hbefore]
      unfold growing?
      rcases write_cases hwrite with ⟨-, hfile, rfl⟩ | ⟨before, visible, -, hfile, hle, -, rfl⟩ |
        ⟨-, hfile, rfl⟩ | ⟨-, hfile, rfl⟩ | ⟨-, hcommitted, -, rfl⟩
      · by_cases hn : n = r.number <;> simp [hn, hfile]
      · by_cases hn : n = r.number <;> simp [hn, hfile, hle]
      · -- the renamed file is the only one that changes
        have hn : n ≠ r.number := by
          rintro rfl
          rcases isFinal_eq_false_iff.mp hafter with hzero | hlt | ⟨-, hne⟩
          · rw [hsound.begun hzero] at hfile
            cases hfile
          · exact lt_irrefl _ hlt
          · exact hne rfl
        simp [hn]
      · exact le_refl _
      · have hfile := hsound.committed hcommitted
        by_cases hn : n = r.number <;> simp [hn, hfile]
  · simp only [Recording.terminal, Bool.and_eq_true, decide_eq_true_eq] at hterminal ⊢
    rcases write_cases hwrite with ⟨-, -, rfl⟩ | ⟨_, _, -, -, -, -, rfl⟩ | ⟨-, -, rfl⟩ |
      ⟨-, -, rfl⟩ | ⟨-, -, hnumber, rfl⟩
    · exact hterminal
    · exact hterminal
    · exact hterminal
    · exact ⟨rfl, hterminal.2⟩
    · exact absurd hterminal.2 (ne_of_lt hnumber)

/-- When the run has ended, all its output is there. -/
theorem Sound.isFinal_of_terminal (h : r.Sound out) (hterminal : r.terminal out = true) {n : Nat}
    (hpos : 0 < n) (hn : n ≤ out.attempts) : r.isFinal n = true := by
  simp only [terminal, Bool.and_eq_true, decide_eq_true_eq] at hterminal
  rw [isFinal_iff]
  refine ⟨hpos, ?_⟩
  rcases lt_or_eq_of_le hn with hlt | heq
  · exact Or.inl (by omega)
  · exact Or.inr ⟨by omega, h.committed hterminal.1⟩

end Recording

end Locron
