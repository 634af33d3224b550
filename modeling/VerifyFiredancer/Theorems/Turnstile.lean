import VerifyFiredancer.UtilBase

/-!
# Threads go through a turnstile one at a time

Whatever threads come to a turnstile, blocking or not, and however their steps interleave, the memory written in it is as if those
that went through had done so one after the other (`turnstile_serial`). A thread that came blocking does not leave without having
gone through, unless it returns from the block it was sent to; and it can always go through (`turnstile_never_stuck`).
-/

namespace VerifyFiredancer

open Guarded

variable {τ κ σ : Type} [DecidableEq τ] {next : κ → σ → Option (κ × σ)}

/-- The code a thread has gone through a turnstile with. -/
def wentThrough (calls : List (Bool × κ × TurnstileExit)) : List κ :=
  calls.filterMap fun call => if call.2.2 = .through then some call.2.1 else none

/-- The code of a thread in a log of a guarded memory. -/
def codeOf (t : τ) (log : List (τ × κ)) : List κ := log.filterMap fun entry => if entry.1 = t then some entry.2 else none

namespace TurnstileAux

/-- The turnstile as a guarded memory. -/
structure Abstracts (s : TurnstileSys τ κ σ) (g : State τ κ σ) : Prop where
  mem : g.mem = s.mem
  inside : ∀ t code k, (∃ blocking, s.pc t = .inside blocking code k) ↔ g.inside = some (t, code, k)
  free : s.state = 0 ↔ g.inside = none
  through : ∀ t, wentThrough (s.calls t) = codeOf t g.log
  blocked : ∀ t blocking code, (blocking, code, .blocked) ∈ s.calls t → blocking = false

/-- A thread that is not in the turnstile goes to a place outside of it. -/
theorem inside_goto {s : TurnstileSys τ κ σ} {g : State τ κ σ} (h : Abstracts s g) {t : τ} {pc : TurnstilePc κ}
    (hold : ∀ b c k, s.pc t ≠ .inside b c k) (hnew : ∀ b c k, pc ≠ .inside b c k) (u : τ) (code k : κ) :
    (∃ blocking, Function.update s.pc t pc u = .inside blocking code k) ↔ g.inside = some (u, code, k) := by
  by_cases hu : u = t
  · subst hu
    rw [Function.update_self, ← h.inside]
    constructor
    · rintro ⟨b, hb⟩
      exact absurd hb (hnew b code k)
    · rintro ⟨b, hb⟩
      exact absurd hb (hold b code k)
  · rw [Function.update_of_ne hu]
    exact h.inside u code k

/-- Only the thread inside is in the turnstile. -/
theorem eq_of_inside {s : TurnstileSys τ κ σ} {g : State τ κ σ} (h : Abstracts s g) {t : τ} {code k : κ}
    (hin : g.inside = some (t, code, k)) {u : τ} {b : Bool} {c k' : κ} (hu : s.pc u = .inside b c k') : u = t := by
  have hu' := (h.inside u c k').1 ⟨b, hu⟩
  rw [hin] at hu'
  cases hu'
  rfl

/-- A thread goes to a place in the turnstile, where no other is. -/
theorem inside_block {s : TurnstileSys τ κ σ} {t : τ} (honly : ∀ u b c k, s.pc u = .inside b c k → u = t) (b : Bool)
    (c k' : κ) (u : τ) (code k : κ) :
    (∃ blocking, Function.update s.pc t (.inside b c k') u = .inside blocking code k) ↔
      some (t, c, k') = some (u, code, k) := by
  by_cases hu : u = t
  · subst hu
    rw [Function.update_self]
    simp
  · rw [Function.update_of_ne hu]
    constructor
    · rintro ⟨blocking, hb⟩
      exact absurd (honly u blocking code k hb) hu
    · rintro ⟨⟩
      exact absurd rfl hu

/-- A call that did not go through changes nothing. -/
theorem through_leave {s : TurnstileSys τ κ σ} {g : State τ κ σ} (h : Abstracts s g) (t : τ) {call : Bool × κ × TurnstileExit}
    (hcall : call.2.2 ≠ .through) (u : τ) : wentThrough ((s.leave t call).calls u) = codeOf u g.log := by
  show wentThrough (Function.update s.calls t (s.calls t ++ [call]) u) = codeOf u g.log
  rw [← h.through u]
  by_cases hu : u = t
  · subst hu
    rw [Function.update_self, wentThrough, List.filterMap_append]
    simp [hcall, wentThrough]
  · rw [Function.update_of_ne hu]

/-- One that did is in the log. -/
theorem through_finish {s : TurnstileSys τ κ σ} {g : State τ κ σ} (h : Abstracts s g) (t : τ) (blocking : Bool) (code : κ)
    (u : τ) : wentThrough ((s.leave t (blocking, code, .through)).calls u) = codeOf u (g.log ++ [(t, code)]) := by
  show wentThrough (Function.update s.calls t (s.calls t ++ [(blocking, code, .through)]) u) = _
  by_cases hu : u = t
  · subst hu
    have hlog := h.through u
    simp only [wentThrough, codeOf] at hlog
    simp [wentThrough, codeOf, hlog]
  · have hlog := h.through u
    simp only [wentThrough, codeOf] at hlog
    simp [Function.update_of_ne hu, wentThrough, codeOf, hlog, Ne.symm hu]

/-- Only calls that did not block were blocked. -/
theorem blocked_leave {s : TurnstileSys τ κ σ} {g : State τ κ σ} (h : Abstracts s g) (t : τ) {call : Bool × κ × TurnstileExit}
    (hcall : call.2.2 = .blocked → call.1 = false) (u : τ) (blocking : Bool) (code : κ)
    (hmem : (blocking, code, .blocked) ∈ (s.leave t call).calls u) : blocking = false := by
  have hmem' : (blocking, code, .blocked) ∈ Function.update s.calls t (s.calls t ++ [call]) u := hmem
  by_cases hu : u = t
  · subst hu
    rw [Function.update_self, List.mem_append, List.mem_singleton] at hmem'
    rcases hmem' with hmem' | rfl
    · exact h.blocked u blocking code hmem'
    · exact hcall rfl
  · rw [Function.update_of_ne hu] at hmem'
    exact h.blocked u blocking code hmem'

/-- A step of a thread is a step of the guarded memory or none. -/
theorem abstracts_step {s s' : TurnstileSys τ κ σ} {g : State τ κ σ} {t : τ} (h : Abstracts s g)
    (hs : TurnstileStep next t s s') : ∃ g', Run next g g' ∧ Abstracts s' g' := by
  cases hs with
  | arrive blocking code hpc =>
    exact ⟨g, .refl, h.mem, inside_goto h (by simp [hpc]) nofun, h.free, h.through, h.blocked⟩
  | zero blocking code hpc htmp =>
    exact ⟨g, .refl, h.mem, inside_goto h (by simp [hpc]) nofun, h.free, h.through, h.blocked⟩
  | busy blocking code hpc htmp =>
    exact ⟨g, .refl, h.mem, inside_goto h (by simp [hpc]) nofun, h.free, h.through, h.blocked⟩
  | won blocking code hpc hcas =>
    have h0 : s.state = 0 := hcas
    have hin := h.free.1 h0
    have hnew : (fdAtomicCas s.state 0 1).2 = 1 := by rw [h0]; rfl
    have honly : ∀ u b c k, s.pc u = .inside b c k → u = t := by
      intro u b c k hu
      have hu' := (h.inside u c k).1 ⟨b, hu⟩
      rw [hin] at hu'
      cases hu'
    refine ⟨_, .single (.enter g t code hin), h.mem, inside_block honly blocking code code, ?_, h.through, h.blocked⟩
    show (fdAtomicCas s.state 0 1).2 = 0 ↔ some (t, code, code) = none
    rw [hnew]
    simp
  | lost blocking code hpc hcas =>
    have hne : s.state ≠ 0 := hcas
    have hsame : (fdAtomicCas s.state 0 1).2 = s.state := if_neg hne
    refine ⟨g, .refl, h.mem, inside_goto h (by simp [hpc]) nofun, ?_, h.through, h.blocked⟩
    rw [hsame]
    exact h.free
  | act blocking code k k' m hpc hgo =>
    have hin := (h.inside t code k).1 ⟨blocking, hpc⟩
    have hbusy : s.state ≠ 0 := fun h0 => by
      rw [h.free, hin] at h0
      cases h0
    rw [← h.mem] at hgo
    refine ⟨_, .single (.act g t code k k' m hin hgo), rfl,
      inside_block (fun u b c k hu => eq_of_inside h hin hu) blocking code k', ?_, h.through, h.blocked⟩
    exact ⟨fun h0 => absurd h0 hbusy, nofun⟩
  | finish blocking code k hpc hend =>
    have hin := (h.inside t code k).1 ⟨blocking, hpc⟩
    rw [← h.mem] at hend
    refine ⟨_, .single (.leave g t code k hin hend), h.mem, ?_, ⟨fun _ => rfl, fun _ => rfl⟩,
      through_finish h t blocking code, blocked_leave h t nofun⟩
    intro u c k'
    show (∃ b, Function.update s.pc t .outside u = .inside b c k') ↔ none = some (u, c, k')
    by_cases hu : u = t
    · subst hu
      rw [Function.update_self]
      constructor
      · rintro ⟨b, hb⟩
        cases hb
      · nofun
    · rw [Function.update_of_ne hu]
      constructor
      · rintro ⟨b, hb⟩
        exact absurd (eq_of_inside h hin hb) hu
      · nofun
  | retry blocking code hpc hb =>
    exact ⟨g, .refl, h.mem, inside_goto h (by simp [hpc]) nofun, h.free, h.through, h.blocked⟩
  | giveUp blocking code hpc hb =>
    exact ⟨g, .refl, h.mem, inside_goto h (by simp [hpc]) nofun, h.free, through_leave h t nofun, blocked_leave h t fun _ => hb⟩
  | returned blocking code hpc =>
    exact ⟨g, .refl, h.mem, inside_goto h (by simp [hpc]) nofun, h.free, through_leave h t nofun, blocked_leave h t nofun⟩

/-- A run of the threads is one of the guarded memory. -/
theorem abstracts_run {m0 : σ} {s : TurnstileSys τ κ σ} (hrun : TurnstileRun next (.start m0) s) :
    ∃ g, Run next (start m0) g ∧ Abstracts s g := by
  induction hrun with
  | refl =>
    refine ⟨start m0, .refl, rfl, ?_, ⟨fun _ => rfl, fun _ => rfl⟩, fun _ => rfl, nofun⟩
    intro t code k
    constructor
    · rintro ⟨b, hb⟩
      cases hb
    · nofun
  | tail _ hs ih =>
    obtain ⟨g, hg, h⟩ := ih
    obtain ⟨t, hs⟩ := hs
    obtain ⟨g', hg', h'⟩ := abstracts_step h hs
    exact ⟨g', hg.trans hg', h'⟩

/-! ## Progress -/

theorem run_step {s s' : TurnstileSys τ κ σ} {t : τ} (hs : TurnstileStep next t s s') : TurnstileRun next s s' :=
  .single ⟨t, hs⟩

/-- The thread in the turnstile comes to its end. -/
theorem finish_run {k : κ} {m : σ} (hhalt : Halts next k m) :
    ∀ {s : TurnstileSys τ κ σ} {t : τ} {blocking : Bool} {code : κ}, s.mem = m → s.pc t = .inside blocking code k →
      ∃ s', TurnstileRun next s s' ∧ s'.state = 0 ∧ s'.pc = Function.update s.pc t .outside ∧
        s'.calls = Function.update s.calls t (s.calls t ++ [(blocking, code, .through)]) := by
  induction hhalt with
  | @done k m hend =>
    rintro s t blocking code rfl hpc
    exact ⟨_, run_step (.finish s blocking code k hpc hend), rfl, rfl, rfl⟩
  | @step k k' m m' hgo hrest ih =>
    rintro s t blocking code rfl hpc
    obtain ⟨s', hrun, hstate, hpc', hcalls⟩ :=
      ih (s := { s.goto t (.inside blocking code k') with mem := m' }) (t := t) rfl (Function.update_self ..)
    refine ⟨s', (run_step (.act s blocking code k k' m' hpc hgo)).trans hrun, hstate, ?_, hcalls⟩
    rw [hpc']
    exact Function.update_idem ..

/-- A thread before the turnstile. -/
def Before (pc : TurnstilePc κ) (code : κ) : Prop := pc = .look true code ∨ pc = .cas true code ∨ pc = .blocked true code

/-- Where no thread is in the turnstile, one before it goes through. -/
theorem through_run (hhalt : ∀ code m, Halts next code m) {s : TurnstileSys τ κ σ} {t : τ} {code : κ} (hstate : s.state = 0)
    (hpc : Before (s.pc t) code) :
    ∃ s', TurnstileRun next s s' ∧ s'.calls t = s.calls t ++ [(true, code, .through)] := by
  have hcas : ∀ s : TurnstileSys τ κ σ, s.state = 0 → s.pc t = .cas true code →
      ∃ s', TurnstileRun next s s' ∧ s'.calls t = s.calls t ++ [(true, code, .through)] := by
    intro s hstate hpc
    obtain ⟨s', hrun, _, _, hcalls⟩ := finish_run (hhalt code s.mem)
      (s := { s.goto t (.inside true code code) with state := (fdAtomicCas s.state 0 1).2 }) (t := t) rfl (Function.update_self ..)
    refine ⟨s', (run_step (.won s true code hpc hstate)).trans hrun, ?_⟩
    rw [hcalls, Function.update_self]
    rfl
  have hlook : ∀ s : TurnstileSys τ κ σ, s.state = 0 → s.pc t = .look true code →
      ∃ s', TurnstileRun next s s' ∧ s'.calls t = s.calls t ++ [(true, code, .through)] := by
    intro s hstate hpc
    obtain ⟨s', hrun, hcalls⟩ := hcas (s.goto t (.cas true code)) hstate (Function.update_self ..)
    exact ⟨s', (run_step (.zero s true code hpc hstate)).trans hrun, hcalls⟩
  rcases hpc with hpc | hpc | hpc
  · exact hlook s hstate hpc
  · exact hcas s hstate hpc
  · obtain ⟨s', hrun, hcalls⟩ := hlook (s.goto t (.look true code)) hstate (Function.update_self ..)
    exact ⟨s', (run_step (.retry s true code hpc rfl)).trans hrun, hcalls⟩

/-- Code that adds some number and ends. -/
def addOnce (todo : Nat) (m : Nat) : Option (Nat × Nat) := if todo = 0 then none else some (0, m + todo)

theorem addOnce_halts (code m : Nat) : Halts addOnce code m := by
  by_cases h : code = 0
  · exact .done (if_pos h)
  · exact .step (if_neg h) (.done rfl)

end TurnstileAux

open TurnstileAux

/-- In every state of every run of any threads, blocking or not: the memory is as if those that went through had done so one after
the other, each once for each call that did, and then one thread may be inside, the only one, which has done a part of its code. No
call that came blocking left because there was another thread. -/
theorem turnstile_serial (next : κ → σ → Option (κ × σ)) (m0 : σ) (s : TurnstileSys τ κ σ)
    (hrun : TurnstileRun next (.start m0) s) :
    ∃ (log : List (τ × κ)) (m : σ), Serial next m0 log m ∧ (∀ t, wentThrough (s.calls t) = codeOf t log) ∧
      ((s.state = 0 ∧ s.mem = m ∧ ∀ t b c k, s.pc t ≠ .inside b c k) ∨
        ∃ t b code k, s.state ≠ 0 ∧ s.pc t = .inside b code k ∧ Executes next (code, m) (k, s.mem) ∧
          ∀ u b' c k', s.pc u = .inside b' c k' → u = t) ∧
      ∀ t code, (true, code, .blocked) ∉ s.calls t := by
  obtain ⟨g, hg, h⟩ := abstracts_run hrun
  obtain ⟨m, hlog, hnone, hsome⟩ := State.Serial.run hg
  rw [h.mem] at hnone
  refine ⟨g.log, m, hlog, h.through, ?_, fun t code hmem => absurd (h.blocked t true code hmem) (by decide)⟩
  cases hin : g.inside with
  | none =>
    refine .inl ⟨h.free.2 hin, hnone hin, ?_⟩
    intro t b c k hpc
    have hpc' := (h.inside t c k).1 ⟨b, hpc⟩
    rw [hin] at hpc'
    cases hpc'
  | some who =>
    obtain ⟨t, code, k⟩ := who
    obtain ⟨b, hpc⟩ := (h.inside t code k).2 hin
    refine .inr ⟨t, b, code, k, ?_, hpc, ?_, fun u b' c k' hu => eq_of_inside h hin hu⟩
    · intro h0
      rw [h.free, hin] at h0
      cases h0
    · rw [← h.mem]
      exact hsome t code k hin

/-- Two threads that read the state before one of them takes the turnstile; the other comes back. -/
theorem turnstile_serial_two :
    ∃ (s : TurnstileSys Bool Nat Nat) (log : List (Bool × Nat)) (m : Nat), TurnstileRun addOnce (.start 0) s ∧ s.mem = 5 ∧
      Serial addOnce 0 log m ∧ wentThrough (s.calls false) = codeOf false log ∧ s.state ≠ 0 := by
  have h1 : TurnstileRun addOnce (TurnstileSys.start 0) _ := run_step (.arrive (t := false) _ true 5 rfl)
  have h2 := h1.tail ⟨true, .arrive _ true 7 rfl⟩
  have h3 := h2.tail ⟨false, .zero _ true 5 rfl rfl⟩
  have h4 := h3.tail ⟨true, .zero _ true 7 rfl rfl⟩
  have h5 := h4.tail ⟨false, .won _ true 5 rfl rfl⟩
  have h6 := h5.tail ⟨true, .lost _ true 7 rfl (by decide)⟩
  have h7 := h6.tail ⟨false, .act _ true 5 5 0 5 rfl rfl⟩
  have h8 := h7.tail ⟨false, .finish _ true 5 0 rfl rfl⟩
  have h9 := h8.tail ⟨true, .retry _ true 7 rfl rfl⟩
  have h10 := h9.tail ⟨true, .zero _ true 7 rfl rfl⟩
  have hrun := h10.tail ⟨true, .won _ true 7 rfl rfl⟩
  obtain ⟨log, m, hlog, hthrough, _⟩ := turnstile_serial addOnce 0 _ hrun
  refine ⟨_, log, m, hrun, ?_, hlog, hthrough false, ?_⟩
  · rfl
  · decide

/-- From every state of every run a thread that is at the turnstile, and came blocking, can go through, if all code ends. -/
theorem turnstile_never_stuck (next : κ → σ → Option (κ × σ)) (m0 : σ) (s : TurnstileSys τ κ σ)
    (hhalt : ∀ code m, Halts next code m) (hrun : TurnstileRun next (.start m0) s) (t : τ) (code : κ)
    (hpc : s.pc t = .look true code ∨ s.pc t = .cas true code ∨ s.pc t = .blocked true code) :
    ∃ s', TurnstileRun next s s' ∧ s'.calls t = s.calls t ++ [(true, code, .through)] := by
  obtain ⟨g, _, h⟩ := abstracts_run hrun
  cases hin : g.inside with
  | none => exact through_run hhalt (h.free.2 hin) hpc
  | some who =>
    -- who is inside goes out first
    obtain ⟨u, c, k⟩ := who
    obtain ⟨b, hu⟩ := (h.inside u c k).2 hin
    have hne : t ≠ u := by
      rintro rfl
      rw [hu] at hpc
      rcases hpc with hpc | hpc | hpc <;> cases hpc
    obtain ⟨s1, hrun1, hstate, hpc1, hcalls1⟩ := finish_run (hhalt k s.mem) rfl hu
    have hbefore : Before (s1.pc t) code := by
      rw [hpc1, Function.update_of_ne hne]
      exact hpc
    obtain ⟨s', hrun', hcalls⟩ := through_run hhalt hstate hbefore
    refine ⟨s', hrun1.trans hrun', ?_⟩
    rw [hcalls, hcalls1, Function.update_of_ne hne]

/-- A thread goes through that was sent away. -/
theorem turnstile_never_stuck_two :
    ∃ s s' : TurnstileSys Bool Nat Nat, TurnstileRun addOnce (.start 0) s ∧ s.pc true = .blocked true 7 ∧
      TurnstileRun addOnce s s' ∧ s'.calls true = [(true, 7, .through)] := by
  have h1 : TurnstileRun addOnce (TurnstileSys.start 0) _ := run_step (.arrive (t := false) _ false 5 rfl)
  have h2 := h1.tail ⟨false, .zero _ false 5 rfl rfl⟩
  have h3 := h2.tail ⟨false, .won _ false 5 rfl rfl⟩
  have h4 := h3.tail ⟨true, .arrive _ true 7 rfl⟩
  have hrun := h4.tail ⟨true, .busy _ true 7 rfl (by decide)⟩
  obtain ⟨s', hrest, hcalls⟩ := turnstile_never_stuck addOnce 0 _ addOnce_halts hrun true 7 (.inr (.inr rfl))
  exact ⟨_, s', hrun, rfl, hrest, hcalls⟩

end VerifyFiredancer
