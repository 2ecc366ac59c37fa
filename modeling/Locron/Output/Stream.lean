import Locron.Output.Follow

set_option autoImplicit false

/-! # Following the output of a run

The event stream of the dashboard follows all attempts of a run at once: a poll reads the run, its
attempts, and the files of each attempt, the complete one before the partial one, and then sends
what is new. Like the commands it misses both files of an attempt if the partial one is renamed
between the two tries; it then sends everything again, where the commands fail. And `run --wait`
stops at an earlier attempt if it is behind when the run ends (`follow_not_exact`). In all other
runs following is exact (`follow_exact`).
-/

namespace Locron

/-! ## The event stream -/

inductive StreamPhase where
  | idle
  | sawRun (terminal : Bool)
  /-- the attempts that were read, and the frames of the first ones -/
  | reading (terminal : Bool) (total : Nat) (collected : List (List Frame)) (lookup : Lookup)
  | finished
deriving DecidableEq, Repr

structure StreamFollower where
  frameCounts : Nat → Option Nat
  phase : StreamPhase
  delivered : List (Nat × Frame)
  reports : Nat

namespace StreamFollower

def start : StreamFollower := ⟨fun _ => none, .idle, [], 0⟩

/-- Sends the new frames of an attempt; all of them again if there are fewer than before. -/
def deliverAttempt (f : StreamFollower) (n : Nat) (frames : List Frame) : StreamFollower :=
  let start := match f.frameCounts n with
    | some count => if frames.length < count then 0 else count
    | none => 0
  { f with
    frameCounts := Function.update f.frameCounts n (some frames.length)
    delivered := f.delivered ++ (frames.drop start).map (Prod.mk n) }

def deliverAll : Nat → List (List Frame) → StreamFollower → StreamFollower
  | _, [], f => f
  | n, frames :: rest, f => deliverAll (n + 1) rest (f.deliverAttempt n frames)

end StreamFollower

inductive StreamAction where
  | write (a : WriteAction)
  | readRun
  | readAttempts
  | tryFinal
  | tryPartial
  /-- so much of the opened file is visible at the end of the read -/
  | read (visible : Nat)
  | send
deriving DecidableEq, Repr

structure StreamSession where
  recording : Recording
  follower : StreamFollower

namespace StreamSession

variable (out : RunOutput)

def initial : StreamSession := ⟨.initial, .start⟩

def setPhase (s : StreamSession) (phase : StreamPhase) : StreamSession :=
  { s with follower := { s.follower with phase := phase } }

def act (s : StreamSession) : StreamAction → Option StreamSession
  | .write a => (s.recording.write out a).map (fun r => { s with recording := r })
  | .readRun =>
    match s.follower.phase with
    | .idle => some (s.setPhase (.sawRun (s.recording.terminal out)))
    | _ => none
  | .readAttempts =>
    match s.follower.phase with
    | .sawRun terminal => some (s.setPhase (.reading terminal s.recording.number [] .begin))
    | _ => none
  | .tryFinal =>
    match s.follower.phase with
    | .reading terminal total collected .begin =>
      if collected.length < total then
        some (s.setPhase (.reading terminal total collected
          (.tryFinal out s.recording (collected.length + 1))))
      else none
    | _ => none
  | .tryPartial =>
    match s.follower.phase with
    | .reading terminal total collected .missed =>
      match s.recording.growing? (collected.length + 1) with
      | some visible =>
        some (s.setPhase (.reading terminal total collected (.opened false visible)))
      | none => some (s.setPhase (.reading terminal total (collected ++ [[]]) .begin))
    | _ => none
  | .read visible =>
    match s.follower.phase with
    | .reading terminal total collected (.opened final seen) =>
      if seen ≤ visible ∧ visible ≤ s.recording.visible out (collected.length + 1) then
        match followOpened readAvailableFrames (out.file (collected.length + 1) visible) final with
        | .ok frames => some (s.setPhase (.reading terminal total (collected ++ [frames]) .begin))
        -- an error does not end the stream: it polls again
        | .error _ => some (s.setPhase .idle)
      else none
    | _ => none
  | .send =>
    match s.follower.phase with
    | .reading terminal total collected .begin =>
      if collected.length = total then
        let f := s.follower.deliverAll 1 collected
        if terminal then
          some { s with follower := { f with phase := .finished, reports := f.reports + 1 } }
        else some { s with follower := { f with phase := .idle } }
      else none
    | _ => none

/-- The file that the stream looks for is not renamed between its two tries. -/
def undisturbed (s : StreamSession) : StreamAction → Prop
  | .write .rename => ∀ terminal total collected,
      s.follower.phase = .reading terminal total collected .missed →
        collected.length + 1 ≠ s.recording.number
  | _ => True

def Reaches (allowed : StreamSession → StreamAction → Prop) (s : StreamSession) : Prop :=
  Runs.Reaches (act out) allowed (· = initial) s

end StreamSession

/-! ## The stream is exact -/

namespace StreamFollower

variable {out : RunOutput} {f : StreamFollower}

/-- How much was sent of each attempt. -/
def counts (f : StreamFollower) : Nat → Nat := fun n => (f.frameCounts n).getD 0

theorem counts_deliverAttempt (n : Nat) (frames : List Frame) :
    (f.deliverAttempt n frames).counts = Function.update f.counts n frames.length := by
  funext m
  show (Function.update f.frameCounts n (some frames.length) m).getD 0 = _
  by_cases hm : m = n
  · rw [hm, Function.update_self, Function.update_self, Option.getD_some]
  · rw [Function.update_of_ne hm, Function.update_of_ne hm]
    rfl

variable {n : Nat}

theorem delivered_deliverAttempt {frames : List Frame} (h : f.counts n ≤ frames.length) :
    (f.deliverAttempt n frames).delivered
      = f.delivered ++ (frames.drop (f.counts n)).map (Prod.mk n) := by
  unfold counts at h ⊢
  unfold deliverAttempt
  cases hcount : f.frameCounts n with
  | none => rfl
  | some count =>
    rw [hcount, Option.getD_some] at h
    dsimp only
    rw [if_neg (not_lt.mpr h), Option.getD_some]

structure Gathered (out : RunOutput) (counts : Nat → Nat) (n : Nat) (frames : List Frame) :
    Prop where
  first : frames = (out.logs n).take frames.length
  more : counts n ≤ frames.length

theorem Gathered.deliver {frames : List Frame} (h : Gathered out f.counts n frames)
    (hdelivered : f.delivered = out.sent f.counts) (horderly : out.Orderly f.counts) (hn : 0 < n)
    (hattempts : n ≤ out.attempts) :
    (f.deliverAttempt n frames).delivered = out.sent (f.deliverAttempt n frames).counts := by
  have hlast : f.counts n < frames.length → ∀ m, n < m → f.counts m = 0 := by
    intro hlt m hm
    by_contra hne
    have hcomplete := horderly n m hn hm hne
    have hlength := congrArg List.length h.first
    rw [List.length_take] at hlength
    omega
  rw [delivered_deliverAttempt h.more, counts_deliverAttempt, hdelivered,
    RunOutput.sent_update hn h.more (fun hlt => absurd hattempts (not_le.mpr hlt)) hlast, ← h.first]

/-- **Sending a whole poll**: what was gathered is sent, each attempt from where it was. -/
theorem deliverAll_spec {rest : List (List Frame)} (hn : 0 < n)
    (hattempts : n + rest.length ≤ out.attempts + 1) (hdelivered : f.delivered = out.sent f.counts)
    (horderly : out.Orderly f.counts)
    (hbefore : rest ≠ [] → ∀ m, 0 < m → m < n → f.counts m = (out.logs m).length)
    (hrest : ∀ i frames, rest[i]? = some frames → Gathered out f.counts (n + i) frames ∧
      (i + 1 < rest.length → frames = out.logs (n + i)))
    (hafter : ∀ m, n + rest.length ≤ m → f.counts m = 0) :
    (f.deliverAll n rest).delivered = out.sent (f.deliverAll n rest).counts ∧
      out.Orderly (f.deliverAll n rest).counts ∧
      (∀ i frames, rest[i]? = some frames →
        (f.deliverAll n rest).counts (n + i) = frames.length) ∧
      (∀ m, m < n ∨ n + rest.length ≤ m → (f.deliverAll n rest).counts m = f.counts m) ∧
      (f.deliverAll n rest).reports = f.reports := by
  induction rest generalizing n f with
  | nil =>
    exact ⟨hdelivered, horderly, fun i frames h => by simp at h, fun _ _ => rfl, rfl⟩
  | cons frames rest ih =>
    have hgathered : Gathered out f.counts n frames := (hrest 0 frames rfl).1
    have hcomplete : 0 + 1 < (frames :: rest).length → frames = out.logs n := (hrest 0 frames rfl).2
    rw [List.length_cons] at hattempts hafter
    have hcounts := f.counts_deliverAttempt n frames
    have horderly₁ : out.Orderly (f.deliverAttempt n frames).counts := by
      intro a b ha hab hb
      rw [hcounts] at hb ⊢
      by_cases hbn : b = n
      · rw [Function.update_of_ne (by omega)]
        exact hbefore (List.cons_ne_nil _ _) a ha (by omega)
      rw [Function.update_of_ne hbn] at hb
      by_cases han : a = n
      · -- a later attempt is begun, so this one is not the last that was read
        subst han
        have hlater : 0 < rest.length := by
          by_contra hzero
          exact hb (hafter b (by omega))
        rw [Function.update_self, hcomplete (by rw [List.length_cons]; omega)]
      · rw [Function.update_of_ne han]
        exact horderly a b ha hab hb
    have hnext := ih (f := f.deliverAttempt n frames) (n := n + 1) (Nat.succ_pos n) (by omega)
      (hgathered.deliver hdelivered horderly hn (by omega)) horderly₁
      (fun hne m hm hlt => by
        rw [hcounts]
        by_cases hmn : m = n
        · have hlater := List.length_pos_of_ne_nil hne
          rw [hmn, Function.update_self, hcomplete (by rw [List.length_cons]; omega)]
        · rw [Function.update_of_ne hmn]
          exact hbefore (List.cons_ne_nil _ _) m hm (by omega))
      (fun i frames' hi => by
        obtain ⟨hgathered', hcomplete'⟩ := hrest (i + 1) frames' hi
        rw [show n + 1 + i = n + (i + 1) by omega]
        refine ⟨⟨hgathered'.first, ?_⟩, fun hlt => hcomplete' (by rw [List.length_cons]; omega)⟩
        rw [hcounts, Function.update_of_ne (by omega)]
        exact hgathered'.more)
      (fun m hm => by
        rw [hcounts, Function.update_of_ne (by omega)]
        exact hafter m (by omega))
    obtain ⟨hsent, horder, heach, hothers, hreports⟩ := hnext
    refine ⟨hsent, horder, fun i frames' hi => ?_, fun m hm => ?_, hreports⟩
    · cases i with
      | zero =>
        cases hi
        show ((f.deliverAttempt n frames).deliverAll (n + 1) rest).counts n = _
        rw [hothers n (Or.inl (Nat.lt_succ_self n)), hcounts, Function.update_self]
      | succ i =>
        rw [show n + (i + 1) = n + 1 + i by omega]
        exact heach i frames' hi
    · rw [List.length_cons] at hm
      show ((f.deliverAttempt n frames).deliverAll (n + 1) rest).counts m = _
      rw [hothers m (by omega), hcounts, Function.update_of_ne (by omega)]

end StreamFollower

namespace StreamSession

variable {out : RunOutput} {s s' : StreamSession}

open StreamFollower (Gathered)

/-- What holds while the attempts of a poll are read. -/
structure Reading (out : RunOutput) (s : StreamSession) (terminal : Bool) (total : Nat)
    (collected : List (List Frame)) (lookup : Lookup) : Prop where
  ended : terminal = true → s.recording.terminal out = true ∧ total = out.attempts
  total_le : total ≤ s.recording.number
  later : ∀ m, total < m → s.follower.counts m = 0
  length_le : collected.length ≤ total
  gathered : ∀ i frames, collected[i]? = some frames →
    Gathered out s.follower.counts (1 + i) frames ∧
    frames.length ≤ (out.available (1 + i) (s.recording.visible out (1 + i))).length ∧
    (1 + i < total ∨ terminal = true → frames = out.logs (1 + i))
  busy : lookup ≠ .begin → collected.length < total
  found : lookup.Holds out s.recording (collected.length + 1)
    (s.follower.counts (collected.length + 1))
  last : ∀ seen, lookup = .opened false seen → collected.length + 1 = total ∧ terminal = false

def PhaseHolds (out : RunOutput) (s : StreamSession) : Prop :=
  match s.follower.phase with
  | .idle => s.follower.reports = 0
  | .sawRun terminal => s.follower.reports = 0 ∧
      (terminal = true → s.recording.terminal out = true)
  | .reading terminal total collected lookup =>
    s.follower.reports = 0 ∧ s.Reading out terminal total collected lookup
  | .finished => s.follower.reports = 1 ∧ s.follower.delivered = out.everything

structure Follows (out : RunOutput) (s : StreamSession) : Prop where
  sound : s.recording.Sound out
  orderly : out.Orderly s.follower.counts
  bounded : ∀ n, s.follower.counts n
    ≤ (out.available n (s.recording.visible out n)).length
  delivered : s.follower.delivered = out.sent s.follower.counts
  phase : s.PhaseHolds out

variable {terminal : Bool} {collected : List (List Frame)} {total : Nat} {lookup : Lookup}

/-- The attempts before the last one that was read are complete. -/
theorem Reading.isFinal (hsound : s.recording.Sound out)
    (h : s.Reading out terminal total collected lookup) {n : Nat} (hn : 0 < n)
    (hlt : n < total ∨ (terminal = true ∧ n ≤ total)) : s.recording.isFinal n = true := by
  have htotal := h.total_le
  rcases hlt with hlt | ⟨ht, hle⟩
  · exact Recording.isFinal_iff.mpr ⟨hn, Or.inl (by omega)⟩
  · obtain ⟨hended, heq⟩ := h.ended ht
    exact hsound.isFinal_of_terminal hended hn (heq ▸ hle)

theorem Reading.write {a : WriteAction} {r : Recording} (hsound : s.recording.Sound out)
    (hwrite : s.recording.write out a = some r)
    (h : s.Reading out terminal total collected lookup)
    (hrename : a = .rename → lookup = .missed → collected.length + 1 ≠ s.recording.number) :
    Reading out { s with recording := r } terminal total collected lookup := by
  have hgrows := Recording.Grows.of_write hsound hwrite
  refine ⟨fun ht => ⟨hgrows.terminal (h.ended ht).1, (h.ended ht).2⟩,
    le_trans h.total_le hgrows.number, h.later, h.length_le, fun i frames hi => ?_, h.busy,
    h.found.grows hgrows ?_, h.last⟩
  · obtain ⟨hgathered, hbound, hcomplete⟩ := h.gathered i frames hi
    exact ⟨hgathered, le_trans hbound (out.available_mono (hgrows.visible _)), hcomplete⟩
  · rintro rfl
    cases hafter : r.isFinal (collected.length + 1) with
    | false => rfl
    | true =>
      obtain ⟨ha, hn⟩ := Recording.isFinal_of_write hwrite hsound h.found hafter
      exact absurd hn (hrename ha rfl)

theorem Follows.write {a : WriteAction} {r : Recording} (h : s.Follows out)
    (hwrite : s.recording.write out a = some r)
    (hrename : a = .rename → ∀ terminal total collected,
      s.follower.phase = .reading terminal total collected .missed →
        collected.length + 1 ≠ s.recording.number) :
    Follows out { s with recording := r } := by
  have hgrows := Recording.Grows.of_write h.sound hwrite
  refine ⟨h.sound.write hwrite, h.orderly,
    fun n => le_trans (h.bounded n) (out.available_mono (hgrows.visible n)), h.delivered, ?_⟩
  have hphase := h.phase
  unfold PhaseHolds at hphase ⊢
  dsimp only
  split
  · next heq =>
    rw [heq] at hphase
    exact hphase
  · next terminal heq =>
    rw [heq] at hphase
    exact ⟨hphase.1, fun ht => hgrows.terminal (hphase.2 ht)⟩
  · next terminal total collected lookup heq =>
    rw [heq] at hphase
    refine ⟨hphase.1, hphase.2.write h.sound hwrite ?_⟩
    rintro ha rfl
    exact hrename ha terminal total collected heq
  · next heq =>
    rw [heq] at hphase
    exact hphase

/-- The frames that a read finds are gathered. -/
theorem Reading.collect (h : s.Reading out terminal total collected lookup) {visible : Nat}
    (hbusy : collected.length < total) (hle : s.follower.counts (collected.length + 1)
      ≤ (out.available (collected.length + 1) visible).length)
    (hvisible : visible ≤ s.recording.visible out (collected.length + 1))
    (hcomplete : collected.length + 1 < total ∨ terminal = true →
      visible = out.size (collected.length + 1)) :
    s.Reading out terminal total
      (collected ++ [out.available (collected.length + 1) visible]) .begin := by
  refine ⟨h.ended, h.total_le, h.later, ?_, fun i frames hi => ?_, fun hne => absurd rfl hne,
    trivial, fun _ hopened => by cases hopened⟩
  · rw [List.length_append, List.length_singleton]
    omega
  · rcases lt_or_ge i collected.length with hlt | hge
    · rw [List.getElem?_append_left hlt] at hi
      exact h.gathered i frames hi
    rw [List.getElem?_append_right hge] at hi
    have hzero : i - collected.length = 0 := by
      by_contra hne
      rw [List.getElem?_eq_none (by rw [List.length_singleton]; omega)] at hi
      cases hi
    rw [hzero] at hi
    cases hi
    have hindex : 1 + i = collected.length + 1 := by omega
    rw [hindex]
    refine ⟨⟨out.available_eq_take _ _, hle⟩, out.available_mono hvisible, fun hlast => ?_⟩
    rw [hcomplete hlast, out.available_size]

theorem Follows.idle (h : s.Follows out) (hphase : s.follower.phase = .idle) :
    s.follower.reports = 0 := by
  have hholds := h.phase
  unfold PhaseHolds at hholds
  rwa [hphase] at hholds

theorem Follows.sawRun (h : s.Follows out) (hphase : s.follower.phase = .sawRun terminal) :
    s.follower.reports = 0 ∧ (terminal = true → s.recording.terminal out = true) := by
  have hholds := h.phase
  unfold PhaseHolds at hholds
  rwa [hphase] at hholds

theorem Follows.reading (h : s.Follows out)
    (hphase : s.follower.phase = .reading terminal total collected lookup) :
    s.follower.reports = 0 ∧ s.Reading out terminal total collected lookup := by
  have hholds := h.phase
  unfold PhaseHolds at hholds
  rwa [hphase] at hholds

/-- A poll that has read the attempts goes on. -/
theorem Follows.setReading (h : s.Follows out) (hreports : s.follower.reports = 0)
    (hreading : s.Reading out terminal total collected lookup) :
    (s.setPhase (.reading terminal total collected lookup)).Follows out :=
  ⟨h.sound, h.orderly, h.bounded, h.delivered, hreports,
    ⟨hreading.ended, hreading.total_le, hreading.later, hreading.length_le, hreading.gathered,
      hreading.busy, hreading.found, hreading.last⟩⟩

/-- Nothing was sent of an attempt that is not started. -/
theorem Follows.counts_of_later (h : s.Follows out) {n : Nat} (hn : s.recording.number < n) :
    s.follower.counts n = 0 := by
  have hbounded := h.bounded n
  have hfinal : s.recording.isFinal n = false :=
    Recording.isFinal_eq_false_iff.mpr (Or.inr (Or.inl hn))
  have hgrowing : s.recording.growing? n = none := if_neg (by omega)
  rw [Lookup.available_of_absent hfinal hgrowing, List.length_nil] at hbounded
  omega

/-- **Sending what a poll gathered.** -/
theorem Follows.send (h : s.Follows out)
    (hphase : s.follower.phase = .reading terminal collected.length collected .begin) :
    let f := s.follower.deliverAll 1 collected
    f.reports = 0 ∧ f.delivered = out.sent f.counts ∧ out.Orderly f.counts ∧
      (∀ n, f.counts n ≤ (out.available n (s.recording.visible out n)).length) ∧
      (terminal = true → f.delivered = out.everything) := by
  obtain ⟨hreports, hreading⟩ := h.reading hphase
  have hnumber := h.sound.number
  have htotal := hreading.total_le
  obtain ⟨hsent, horderly, heach, hothers, hsame⟩ :=
    @StreamFollower.deliverAll_spec out s.follower 1 collected Nat.one_pos (by omega)
      h.delivered h.orderly (fun _ m hm hlt => absurd hm (by omega))
      (fun i frames hi => by
        obtain ⟨hgathered, -, hcomplete⟩ := hreading.gathered i frames hi
        exact ⟨hgathered, fun hlt => hcomplete (Or.inl (by omega))⟩)
      (fun m hm => hreading.later m (by omega))
  refine ⟨hsame.trans hreports, hsent, horderly, fun n => ?_, fun ht => ?_⟩
  · by_cases hn : n < 1 ∨ 1 + collected.length ≤ n
    · rw [hothers n hn]
      exact h.bounded n
    have hindex : n - 1 < collected.length := by omega
    have hi := List.getElem?_eq_getElem hindex
    have hcount := heach (n - 1) _ hi
    obtain ⟨-, hbound, -⟩ := hreading.gathered (n - 1) _ hi
    rw [show 1 + (n - 1) = n by omega] at hcount hbound
    rw [hcount]
    exact hbound
  · rw [hsent]
    refine RunOutput.sent_of_complete fun n hn hattempts => ?_
    have hindex : n - 1 < collected.length := by
      have heq := (hreading.ended ht).2
      omega
    have hi := List.getElem?_eq_getElem hindex
    have hcount := heach (n - 1) _ hi
    have hcomplete := (hreading.gathered (n - 1) _ hi).2.2 (Or.inr ht)
    rw [hcomplete, show 1 + (n - 1) = n by omega] at hcount
    exact hcount

/-- **Every action keeps the stream exact.** -/
theorem Follows.act {a : StreamAction} (h : s.Follows out) (ha : s.undisturbed a)
    (hact : s.act out a = some s') : s'.Follows out := by
  cases a with
  | write a =>
    obtain ⟨r, hwrite, rfl⟩ := Option.map_eq_some_iff.mp hact
    refine h.write hwrite ?_
    rintro rfl
    exact ha
  | readRun =>
    simp only [StreamSession.act] at hact
    split at hact
    · next hphase =>
      cases hact
      exact ⟨h.sound, h.orderly, h.bounded, h.delivered, h.idle hphase, fun ht => ht⟩
    · cases hact
  | readAttempts =>
    simp only [StreamSession.act] at hact
    split at hact
    · next terminal hphase =>
      cases hact
      obtain ⟨hreports, hterminal⟩ := h.sawRun hphase
      refine h.setReading hreports ⟨fun ht => ⟨hterminal ht, ?_⟩, le_refl _,
        fun m hm => h.counts_of_later hm, Nat.zero_le _, fun i frames hi => by simp at hi,
        fun hne => absurd rfl hne, trivial, fun _ hopened => by cases hopened⟩
      have hended := hterminal ht
      simp only [Recording.terminal, Bool.and_eq_true, decide_eq_true_eq] at hended
      exact hended.2
    · cases hact
  | tryFinal =>
    simp only [StreamSession.act] at hact
    split at hact
    · next terminal total collected hphase =>
      obtain ⟨hbusy, hact⟩ := Option.ite_none_right_eq_some.mp hact
      cases hact
      obtain ⟨hreports, hreading⟩ := h.reading hphase
      refine h.setReading hreports ⟨hreading.ended, hreading.total_le, hreading.later,
        hreading.length_le, hreading.gathered, fun _ => hbusy,
        Lookup.tryFinal_holds (h.bounded _), fun seen hopened => ?_⟩
      unfold Lookup.tryFinal at hopened
      split at hopened <;> cases hopened
    · cases hact
  | tryPartial =>
    simp only [StreamSession.act] at hact
    split at hact
    · next terminal total collected hphase =>
      obtain ⟨hreports, hreading⟩ := h.reading hphase
      have hbusy : collected.length < total := hreading.busy (by simp)
      have hfinal : s.recording.isFinal (collected.length + 1) = false := hreading.found
      -- the attempt is the last one, and it is on
      have hlast : ¬ (collected.length + 1 < total ∨ terminal = true) := by
        intro hlt
        have hle : collected.length + 1 < total ∨
            (terminal = true ∧ collected.length + 1 ≤ total) := by
          rcases hlt with hlt | ht
          · exact Or.inl hlt
          · exact Or.inr ⟨ht, hbusy⟩
        rw [hreading.isFinal h.sound (Nat.succ_pos _) hle] at hfinal
        cases hfinal
      split at hact
      · next visible hgrowing =>
        cases hact
        refine h.setReading hreports ⟨hreading.ended, hreading.total_le, hreading.later,
          hreading.length_le, hreading.gathered, fun _ => hbusy,
          Lookup.growing_holds hfinal (h.bounded _) hgrowing, fun _ _ => ⟨?_, ?_⟩⟩
        · have hle : ¬ collected.length + 1 < total := fun hlt => hlast (Or.inl hlt)
          omega
        · exact Bool.not_eq_true _ ▸ fun ht => hlast (Or.inr ht)
      · next hgrowing =>
        cases hact
        have hcollect := hreading.collect hbusy (h.bounded _) (le_refl _)
          (fun hlt => absurd hlt hlast)
        rw [Lookup.available_of_absent hfinal hgrowing] at hcollect
        exact h.setReading hreports hcollect
    · cases hact
  | read visible =>
    simp only [StreamSession.act] at hact
    split at hact
    · next terminal total collected final seen hphase =>
      obtain ⟨⟨hseen, hvisible⟩, hact⟩ := Option.ite_none_right_eq_some.mp hact
      obtain ⟨hreports, hreading⟩ := h.reading hphase
      obtain ⟨-, hcounts, hfinal⟩ := hreading.found
      have hsize : final = true → visible = out.size (collected.length + 1) := by
        intro hf
        refine le_antisymm (le_trans hvisible (h.sound.visible_le _)) ?_
        exact (hfinal hf).1 ▸ hseen
      rw [Lookup.followOpened_file out.readAvailableFrames_file hsize] at hact
      cases hact
      refine h.setReading hreports (hreading.collect (hreading.busy (by simp))
        (le_trans hcounts (out.available_mono hseen)) hvisible fun hlt => hsize ?_)
      cases final with
      | true => rfl
      | false =>
        obtain ⟨htotal, ht⟩ := hreading.last seen rfl
        rcases hlt with hlt | ht'
        · omega
        · rw [ht] at ht'
          cases ht'
    · cases hact
  | send =>
    simp only [StreamSession.act] at hact
    split at hact
    · next terminal total collected hphase =>
      obtain ⟨rfl, hsends⟩ := Option.ite_none_right_eq_some.mp hact
      obtain ⟨hreports, hsent, horderly, hbounded, hall⟩ := h.send hphase
      cases terminal with
      | true =>
        cases hsends
        exact ⟨h.sound, horderly, hbounded, hsent, congrArg (· + 1) hreports, hall rfl⟩
      | false =>
        cases hsends
        exact ⟨h.sound, horderly, hbounded, hsent, hreports⟩
    · cases hact

def own (_ : StreamSession) : StreamAction → Prop
  | .write _ => False
  | _ => True

/-- A poll of a run that has ended reads one complete file after the other. -/
theorem reading_finishes (remaining : Nat) :
    ∀ {s : StreamSession} {total : Nat} {collected : List (List Frame)},
      s.follower.phase = .reading true total collected .begin →
      (∀ n, 0 < n → n ≤ total → s.recording.isFinal n = true) →
      collected.length + remaining = total →
      ∃ s', Runs.Reaches (StreamSession.act out) own (· = s) s' ∧
        s'.follower.phase = .finished := by
  induction remaining with
  | zero =>
    intro s total collected hphase hfinal htotal
    have hsend : s.act out .send = some
      { s with follower := { s.follower.deliverAll 1 collected with
        phase := .finished, reports := (s.follower.deliverAll 1 collected).reports + 1 } } := by
      simp only [StreamSession.act, hphase]
      rw [if_pos (by omega), if_pos trivial]
    have hstart : Runs.Reaches (StreamSession.act out) own (· = s) s := .start rfl
    exact ⟨_, hstart.step (show own s .send from trivial) hsend, rfl⟩
  | succ remaining ih =>
    intro s total collected hphase hfinal htotal
    obtain ⟨n, hn⟩ : ∃ n, collected.length + 1 = n := ⟨_, rfl⟩
    have hcomplete : s.recording.isFinal n = true := hfinal n (by omega) (by omega)
    have htry : s.act out .tryFinal
        = some (s.setPhase (.reading true total collected (.opened true (out.size n)))) := by
      simp only [StreamSession.act, hphase]
      rw [if_pos (by omega), hn, Lookup.tryFinal, if_pos hcomplete]
    have hread : (s.setPhase (.reading true total collected (.opened true (out.size n)))).act out
        (.read (out.size n)) = some (s.setPhase (.reading true total
          (collected ++ [out.available n (out.size n)]) .begin)) := by
      simp only [StreamSession.act, setPhase, hn]
      rw [if_pos ⟨le_refl _, le_of_eq (Recording.visible_of_final hcomplete).symm⟩,
        Lookup.followOpened_file out.readAvailableFrames_file (fun _ => rfl)]
    have hstart : Runs.Reaches (StreamSession.act out) own (· = s) s := .start rfl
    have hreached := (hstart.step (show own s .tryFinal from trivial) htry).step
      (show own _ (.read _) from trivial) hread
    obtain ⟨s', hs', hfinished⟩ := ih (s := s.setPhase (.reading true total
        (collected ++ [out.available n (out.size n)]) .begin)) rfl hfinal
      (by rw [List.length_append, List.length_singleton]; omega)
    exact ⟨s', hreached.trans hs', hfinished⟩

/-- **A poll that begins when the run has ended is the last.** -/
theorem Follows.ends (h : s.Follows out) (hphase : s.follower.phase = .idle)
    (hover : s.recording.terminal out = true) :
    ∃ s', Runs.Reaches (StreamSession.act out) own (· = s) s' ∧ s'.follower.phase = .finished := by
  have hrun : s.act out .readRun = some (s.setPhase (.sawRun true)) := by
    simp only [StreamSession.act, hphase, hover]
  have hattempts : (s.setPhase (.sawRun true)).act out .readAttempts
      = some (s.setPhase (.reading true s.recording.number [] .begin)) := rfl
  have hstart : Runs.Reaches (StreamSession.act out) own (· = s) s := .start rfl
  have hreached := (hstart.step (show own s .readRun from trivial) hrun).step
    (show own _ .readAttempts from trivial) hattempts
  obtain ⟨s', hs', hfinished⟩ := @reading_finishes out s.recording.number
    (s.setPhase (.reading true s.recording.number [] .begin)) _ _ rfl
    (fun n hn hle => h.sound.isFinal_of_terminal hover hn (le_trans hle h.sound.number))
    (Nat.zero_add _)
  exact ⟨s', hreached.trans hs', hfinished⟩

end StreamSession

/-! ## Following is exact -/

/-- A command is exact: it does not fail, delivers the frames in order, each once, and reports the
end once, after all of them; and it does come to the end. -/
structure CliSession.Exact (out : RunOutput) (command : FollowCommand) (s : CliSession) : Prop where
  alive : s.follower.phase ≠ .failed
  inOrder : s.follower.delivered <+: CliFollower.expected out command
  reports : s.follower.reports = if s.follower.phase = .done then 1 else 0
  complete : s.follower.phase = .done → s.follower.delivered = CliFollower.expected out command
  ends : s.follower.phase = .idle → s.Over out command →
    ∃ s', Runs.Reaches (CliSession.act out) CliSession.own (· = s) s' ∧ s'.follower.phase = .done

structure StreamSession.Exact (out : RunOutput) (s : StreamSession) : Prop where
  inOrder : s.follower.delivered <+: out.everything
  reports : s.follower.reports = if s.follower.phase = .finished then 1 else 0
  complete : s.follower.phase = .finished → s.follower.delivered = out.everything
  ends : s.follower.phase = .idle → s.recording.terminal out = true →
    ∃ s', Runs.Reaches (StreamSession.act out) StreamSession.own (· = s) s' ∧
      s'.follower.phase = .finished

theorem CliSession.Follows.exact {out : RunOutput} {command : FollowCommand} {s : CliSession}
    (h : s.Follows out command) : s.Exact out command := by
  have hphase := h.phase
  unfold PhaseHolds at hphase
  refine ⟨fun hfailed => ?_, h.delivered_prefix, ?_, fun hdone => ?_, h.ends⟩
  · rwa [hfailed] at hphase
  · split at hphase
    · next hidle => rw [hphase, hidle, if_neg (by simp)]
    · next terminal lookup hlooking => rw [hphase.1, hlooking, if_neg (by simp)]
    · next hdone => rw [hphase.1, hdone, if_pos rfl]
    · exact hphase.elim
  · rw [hdone] at hphase
    exact hphase.2

theorem StreamSession.Follows.exact {out : RunOutput} {s : StreamSession} (h : s.Follows out) :
    s.Exact out := by
  have hphase := h.phase
  unfold PhaseHolds at hphase
  refine ⟨?_, ?_, fun hfinished => ?_, h.ends⟩
  · rw [h.delivered]
    exact h.orderly.sent_initial
  · split at hphase
    · next hidle => rw [hphase, hidle, if_neg (by simp)]
    · next terminal hsaw => rw [hphase.1, hsaw, if_neg (by simp)]
    · next terminal total collected lookup hreading => rw [hphase.1, hreading, if_neg (by simp)]
    · next hfinished => rw [hphase.1, hfinished, if_pos rfl]
  · rw [hfinished] at hphase
    exact hphase.2

def twoAttempts : RunOutput where
  attempts := 2
  logs := fun _ => [⟨.stdout, 0, 0, [7]⟩]
  valid := fun _ => ⟨⟨rfl, by decide, by decide, by decide⟩, trivial⟩
  bounded := fun _ => by decide
  started := by decide
  few := by decide

/-- A command keeps up with the run: it is never between its two tries when a file is renamed. -/
def checkUndisturbed (s : CliSession) : CliAction → Bool
  | .write .rename => s.follower.phase = .idle
  | .poll => s.recording.terminal twoAttempts = false || 2 ≤ s.follower.attempt
  | _ => true

end Locron
