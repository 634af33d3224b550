import VerifyFiredancer.UtilBase

/-!
# A once block runs once

Whatever threads come to a once block, and however their steps interleave, the code in it runs at most once, for one of them, and
no thread gets past it before it has run (`once_runs_once`); and every thread can get past it (`once_never_stuck`). The block is a
guarded memory that is entered once: `OnceAux.Abstracts` is the simulation.
-/

namespace VerifyFiredancer

open Guarded

variable {τ κ σ : Type} [DecidableEq τ] {next : κ → σ → Option (κ × σ)} {code : τ → κ}

namespace OnceAux

/-- The block as a guarded memory: not entered yet, being run, or run. -/
structure Abstracts (code : τ → κ) (s : OnceSys τ κ σ) (g : State τ κ σ) : Prop where
  mem : g.mem = s.mem
  inside : ∀ t k, s.pc t = .block k ↔ g.inside = some (t, code t, k)
  phase : s.state = 0 ∧ g.inside = none ∧ g.log = [] ∧ s.entered = [] ∨
    (∃ t k, s.state = -1 ∧ g.inside = some (t, code t, k) ∧ g.log = [] ∧ s.entered = [t]) ∨
    ∃ t, s.state = 1 ∧ g.inside = none ∧ g.log = [(t, code t)] ∧ s.entered = [t]
  past : ∀ t, 0 < s.past t → s.state = 1

@[simp] theorem goto_pc (s : OnceSys τ κ σ) (t u : τ) (pc : OncePc κ) : (s.goto t pc).pc u = Function.update s.pc t pc u := rfl

/-- A thread that is not in the block goes to a place outside of it. -/
theorem inside_goto {s : OnceSys τ κ σ} {g : State τ κ σ} (h : Abstracts code s g) {t : τ} {pc : OncePc κ}
    (hold : ∀ k, s.pc t ≠ .block k) (hnew : ∀ k, pc ≠ .block k) (u : τ) (k : κ) :
    Function.update s.pc t pc u = .block k ↔ g.inside = some (u, code u, k) := by
  by_cases hu : u = t
  · subst hu
    rw [Function.update_self, ← h.inside]
    exact ⟨fun hk => absurd hk (hnew k), fun hk => absurd hk (hold k)⟩
  · rw [Function.update_of_ne hu]
    exact h.inside u k

/-- The thread in the block goes to another place in it. -/
theorem inside_block {s : OnceSys τ κ σ} {t : τ} (h : ∀ u k, s.pc u = .block k → u = t) (k' : κ) (u : τ) (k : κ) :
    Function.update s.pc t (.block k') u = .block k ↔ some (t, code t, k') = some (u, code u, k) := by
  by_cases hu : u = t
  · subst hu
    rw [Function.update_self]
    simp
  · rw [Function.update_of_ne hu]
    constructor
    · intro hk
      exact absurd (h u k hk) hu
    · rintro ⟨⟩
      exact absurd rfl hu

omit [DecidableEq τ] in
/-- Only the thread inside is in the block. -/
theorem eq_of_inside {s : OnceSys τ κ σ} {g : State τ κ σ} (h : Abstracts code s g) {t : τ} {k : κ} (hk : s.pc t = .block k) :
    ∀ u k', s.pc u = .block k' → u = t := by
  intro u k' hk'
  rw [h.inside] at hk hk'
  rw [hk] at hk'
  cases hk'
  rfl

omit [DecidableEq τ] in
/-- A thread in the block is the one that entered it. -/
theorem phase_of_block {s : OnceSys τ κ σ} {g : State τ κ σ} (h : Abstracts code s g) {t : τ} {k : κ} (hk : s.pc t = .block k) :
    s.state = -1 ∧ g.log = [] ∧ s.entered = [t] := by
  rw [h.inside] at hk
  rcases h.phase with ⟨_, hin, _⟩ | ⟨u, k', hstate, hin, hlog, hent⟩ | ⟨_, _, hin, _⟩
  · rw [hk] at hin
    cases hin
  · rw [hk] at hin
    cases hin
    exact ⟨hstate, hlog, hent⟩
  · rw [hk] at hin
    cases hin

/-- A step of a thread is a step of the guarded memory or none. -/
theorem abstracts_step {s s' : OnceSys τ κ σ} {g : State τ κ σ} {t : τ} (h : Abstracts code s g)
    (hs : OnceStep next code t s s') : ∃ g', Run next g g' ∧ Abstracts code s' g' := by
  cases hs with
  | arrive hpc =>
    exact ⟨g, .refl, h.mem, inside_goto h (by simp [hpc]) nofun, h.phase, h.past⟩
  | skip hpc htmp =>
    refine ⟨g, .refl, h.mem, inside_goto h (by simp [hpc]) nofun, h.phase, ?_⟩
    intro u hu
    rcases h.phase with ⟨h0, _⟩ | ⟨_, _, h0, _⟩ | ⟨_, h1, _⟩
    · omega
    · omega
    · exact h1
  | zero hpc htmp =>
    exact ⟨g, .refl, h.mem, inside_goto h (by simp [hpc]) nofun, h.phase, h.past⟩
  | yield hpc htmp => exact ⟨g, .refl, h⟩
  | won hpc hcas =>
    have h0 : s.state = 0 := hcas
    have hnew : (fdAtomicCas s.state 0 (-1)).2 = -1 := by rw [h0]; rfl
    rcases h.phase with ⟨_, hin, hlog, hent⟩ | ⟨_, _, h1, _⟩ | ⟨_, h1, _⟩
    · have hnone : ∀ u k, s.pc u = .block k → u = t := by
        intro u k hk
        rw [h.inside, hin] at hk
        cases hk
      refine ⟨_, .single (.enter g t (code t) hin), h.mem, inside_block hnone (code t),
        .inr (.inl ⟨t, code t, hnew, rfl, hlog, ?_⟩), ?_⟩
      · show s.entered ++ [t] = [t]
        rw [hent, List.nil_append]
      · intro u hu
        have := h.past u hu
        omega
    · omega
    · omega
  | lost hpc hcas =>
    have hne : s.state ≠ 0 := hcas
    have hsame : (fdAtomicCas s.state 0 (-1)).2 = s.state := if_neg hne
    refine ⟨g, .refl, h.mem, inside_goto h (by simp [hpc]) nofun, ?_, ?_⟩
    · rw [hsame]
      exact h.phase
    · rw [hsame]
      exact h.past
  | act k k' m hpc hgo =>
    obtain ⟨hstate, hlog, hent⟩ := phase_of_block h hpc
    have hin := (h.inside t k).1 hpc
    rw [← h.mem] at hgo
    exact ⟨_, .single (.act g t (code t) k k' m hin hgo), rfl, inside_block (eq_of_inside h hpc) k',
      .inr (.inl ⟨t, k', hstate, rfl, hlog, hent⟩), h.past⟩
  | finish k hpc hend =>
    obtain ⟨hstate, hlog, hent⟩ := phase_of_block h hpc
    have hin := (h.inside t k).1 hpc
    rw [← h.mem] at hend
    refine ⟨_, .single (.leave g t (code t) k hin hend), h.mem, ?_, .inr (.inr ⟨t, rfl, rfl, ?_, hent⟩), fun _ _ => rfl⟩
    · intro u k'
      show Function.update s.pc t .outside u = .block k' ↔ none = some (u, code u, k')
      by_cases hu : u = t
      · subst hu
        rw [Function.update_self]
        exact ⟨nofun, nofun⟩
      · rw [Function.update_of_ne hu]
        exact ⟨fun hk => absurd (eq_of_inside h hpc u k' hk) hu, nofun⟩
    · show g.log ++ [(t, code t)] = [(t, code t)]
      rw [hlog, List.nil_append]

/-- A run of the threads is one of the guarded memory. -/
theorem abstracts_run {m0 : σ} {s : OnceSys τ κ σ} (hrun : OnceRun next code (.start m0) s) :
    ∃ g, Run next (start m0) g ∧ Abstracts code s g := by
  induction hrun with
  | refl =>
    refine ⟨start m0, .refl, rfl, ?_, .inl ⟨rfl, rfl, rfl, rfl⟩, ?_⟩
    · intro t k
      exact ⟨nofun, nofun⟩
    · intro t ht
      exact absurd ht (Nat.lt_irrefl 0)
  | tail _ hs ih =>
    obtain ⟨g, hg, h⟩ := ih
    obtain ⟨t, hs⟩ := hs
    obtain ⟨g', hg', h'⟩ := abstracts_step h hs
    exact ⟨g', hg.trans hg', h'⟩

omit [DecidableEq τ] in
/-- With an empty log the memory is as it was, or as who is inside has it; with one entry it is as that thread left it. -/
theorem serial_of_run {m0 : σ} {g : State τ κ σ} (hg : Run next (start m0) g) :
    (g.log = [] → (g.inside = none → g.mem = m0) ∧ ∀ t c k, g.inside = some (t, c, k) → Executes next (c, m0) (k, g.mem)) ∧
      ∀ t c, g.log = [(t, c)] → g.inside = none → ∃ k, Executes next (c, m0) (k, g.mem) ∧ next k g.mem = none := by
  obtain ⟨m, hlog, hnone, hsome⟩ := State.Serial.run hg
  constructor
  · intro hnil
    rw [hnil] at hlog
    obtain rfl := hlog.nil_mem
    exact ⟨hnone, hsome⟩
  · intro t c hone hin
    rw [hone] at hlog
    obtain ⟨k, hrun, hend⟩ := hlog.one_mem
    rw [hnone hin]
    exact ⟨k, hrun, hend⟩

/-! ## Progress -/

theorem run_step {s s' : OnceSys τ κ σ} {t : τ} (hs : OnceStep next code t s s') : OnceRun next code s s' :=
  .single ⟨t, hs⟩

variable (code) in
/-- The thread in the block comes to its end. -/
theorem finish_run {k : κ} {m : σ} (hhalt : Halts next k m) :
    ∀ {s : OnceSys τ κ σ} {t : τ}, s.mem = m → s.pc t = .block k →
      ∃ s', OnceRun next code s s' ∧ s'.state = 1 ∧ s'.pc = Function.update s.pc t .outside ∧
        s'.past = Function.update s.past t (s.past t + 1) := by
  induction hhalt with
  | @done k m hend =>
    rintro s t rfl hpc
    exact ⟨_, run_step (.finish s k hpc hend), rfl, rfl, rfl⟩
  | @step k k' m m' hgo hrest ih =>
    rintro s t rfl hpc
    obtain ⟨s', hrun, hstate, hpc', hpast⟩ := ih (s := { s.goto t (.block k') with mem := m' }) (t := t) rfl
      (Function.update_self ..)
    refine ⟨s', (run_step (.act s k k' m' hpc hgo)).trans hrun, hstate, ?_, hpast⟩
    rw [hpc']
    exact Function.update_idem ..

variable (next code) in
/-- Once the code has run, a thread gets past the block. -/
theorem past_run {s : OnceSys τ κ σ} {t : τ} (hstate : s.state = 1) (hpc : ∀ k, s.pc t ≠ .block k) :
    ∃ s', OnceRun next code s s' ∧ s.past t < s'.past t := by
  have hlook : ∀ s : OnceSys τ κ σ, s.state = 1 → s.pc t = .look →
      ∃ s', OnceRun next code s s' ∧ s.past t < s'.past t := by
    intro s hstate hpc
    refine ⟨_, run_step (.skip s hpc (by rw [hstate]; decide)), ?_⟩
    show s.past t < Function.update s.past t (s.past t + 1) t
    rw [Function.update_self]
    exact Nat.lt_succ_self _
  cases hp : s.pc t with
  | outside =>
    obtain ⟨s', hrun, hlt⟩ := hlook (s.goto t .look) hstate (Function.update_self ..)
    exact ⟨s', (run_step (.arrive s hp)).trans hrun, hlt⟩
  | look => exact hlook s hstate hp
  | cas =>
    have hne : (fdAtomicCas s.state 0 (-1)).1 ≠ 0 := by
      rw [hstate]
      decide
    have hsame : (fdAtomicCas s.state 0 (-1)).2 = 1 := by
      rw [hstate]
      rfl
    obtain ⟨s', hrun, hlt⟩ := hlook { s.goto t .look with state := (fdAtomicCas s.state 0 (-1)).2 } hsame (Function.update_self ..)
    exact ⟨s', (run_step (.lost s hp hne)).trans hrun, hlt⟩
  | block k => exact absurd hp (hpc k)

variable (next code) in
/-- Where nobody has entered the block yet, a thread enters it. -/
theorem enter_run {s : OnceSys τ κ σ} {t : τ} (hstate : s.state = 0) (hpc : ∀ k, s.pc t ≠ .block k) :
    ∃ s', OnceRun next code s s' ∧ s'.mem = s.mem ∧ s'.past = s.past ∧ s'.pc t = .block (code t) := by
  have hcas : ∀ s : OnceSys τ κ σ, s.state = 0 → s.pc t = .cas →
      ∃ s', OnceRun next code s s' ∧ s'.mem = s.mem ∧ s'.past = s.past ∧ s'.pc t = .block (code t) := by
    intro s hstate hpc
    exact ⟨_, run_step (.won s hpc hstate), rfl, rfl, Function.update_self ..⟩
  have hlook : ∀ s : OnceSys τ κ σ, s.state = 0 → s.pc t = .look →
      ∃ s', OnceRun next code s s' ∧ s'.mem = s.mem ∧ s'.past = s.past ∧ s'.pc t = .block (code t) := by
    intro s hstate hpc
    obtain ⟨s', hrun, hrest⟩ := hcas (s.goto t .cas) hstate (Function.update_self ..)
    exact ⟨s', (run_step (.zero s hpc hstate)).trans hrun, hrest⟩
  cases hp : s.pc t with
  | outside =>
    obtain ⟨s', hrun, hrest⟩ := hlook (s.goto t .look) hstate (Function.update_self ..)
    exact ⟨s', (run_step (.arrive s hp)).trans hrun, hrest⟩
  | look => exact hlook s hstate hp
  | cas => exact hcas s hstate hp
  | block k => exact absurd hp (hpc k)

/-- The thread in the block comes to its end, and any other then gets past. -/
theorem finish_past_run {s : OnceSys τ κ σ} {u : τ} {k : κ} (hhalt : Halts next k s.mem) (hpc : s.pc u = .block k)
    (honly : ∀ t k', s.pc t = .block k' → t = u) (t : τ) : ∃ s', OnceRun next code s s' ∧ s.past t < s'.past t := by
  obtain ⟨s', hrun, hstate, hpc', hpast⟩ := finish_run code hhalt rfl hpc
  by_cases ht : t = u
  · subst ht
    refine ⟨s', hrun, ?_⟩
    rw [hpast, Function.update_self]
    exact Nat.lt_succ_self _
  · have hout : ∀ k', s'.pc t ≠ .block k' := by
      intro k' hk'
      rw [hpc', Function.update_of_ne ht] at hk'
      exact ht (honly t k' hk')
    obtain ⟨s'', hrun', hlt⟩ := past_run next code hstate hout
    rw [hpast, Function.update_of_ne ht] at hlt
    exact ⟨s'', hrun.trans hrun', hlt⟩

/-- Code that adds one and ends. -/
def addOne (todo : Bool) (m : Nat) : Option (Bool × Nat) := if todo then some (false, m + 1) else none

theorem addOne_halts (m : Nat) : Halts addOne true m := .step rfl (.done rfl)

end OnceAux

open OnceAux

/-- In every state of every run of any threads: at most one thread has entered the block. It is the only one in it, its code has
worked on the memory as it was in the beginning, and on nothing else; and when a thread has got past the block, that code has come to
its end and nobody is in the block. -/
theorem once_runs_once (next : κ → σ → Option (κ × σ)) (code : τ → κ) (m0 : σ) (s : OnceSys τ κ σ)
    (hrun : OnceRun next code (.start m0) s) :
    s.entered.length ≤ 1 ∧ (s.entered = [] → s.mem = m0) ∧
      (∀ t k, s.pc t = .block k → s.entered = [t] ∧ Executes next (code t, m0) (k, s.mem)) ∧
      ∀ t, 0 < s.past t → (∀ u k, s.pc u ≠ .block k) ∧
        ∃ u k, s.entered = [u] ∧ Executes next (code u, m0) (k, s.mem) ∧ next k s.mem = none := by
  obtain ⟨g, hg, h⟩ := abstracts_run hrun
  obtain ⟨hempty, hone⟩ := serial_of_run hg
  rw [h.mem] at hempty hone
  refine ⟨?_, ?_, ?_, ?_⟩
  · rcases h.phase with ⟨_, _, _, hent⟩ | ⟨_, _, _, _, _, hent⟩ | ⟨_, _, _, _, hent⟩ <;> rw [hent] <;> simp
  · intro hnil
    rcases h.phase with ⟨_, hin, hlog, _⟩ | ⟨_, _, _, _, _, hent⟩ | ⟨_, _, _, _, hent⟩
    · exact (hempty hlog).1 hin
    · rw [hnil] at hent
      cases hent
    · rw [hnil] at hent
      cases hent
  · intro t k hpc
    obtain ⟨_, hlog, hent⟩ := phase_of_block h hpc
    exact ⟨hent, (hempty hlog).2 t (code t) k ((h.inside t k).1 hpc)⟩
  · intro t ht
    have h1 := h.past t ht
    rcases h.phase with ⟨h0, _⟩ | ⟨_, _, h0, _⟩ | ⟨u, _, hin, hlog, hent⟩
    · omega
    · omega
    · obtain ⟨k, hexec, hend⟩ := hone u (code u) hlog hin
      refine ⟨fun v k' hv => ?_, u, k, hent, hexec, hend⟩
      rw [h.inside, hin] at hv
      cases hv

/-- Two threads that read the state before one of them takes the block, and get past it. -/
theorem once_runs_once_two :
    ∃ s : OnceSys Bool Bool Nat, OnceRun addOne (fun _ => true) (.start 0) s ∧ 0 < s.past false ∧ 0 < s.past true ∧
      ∃ u k, s.entered = [u] ∧ Executes addOne (true, 0) (k, s.mem) ∧ addOne k s.mem = none := by
  have h1 : OnceRun addOne (fun _ => true) (OnceSys.start 0) _ := run_step (.arrive (t := false) _ rfl)
  have h2 := h1.tail ⟨false, .zero _ rfl rfl⟩
  have h3 := h2.tail ⟨true, .arrive _ rfl⟩
  have h4 := h3.tail ⟨true, .zero _ rfl rfl⟩
  have h5 := h4.tail ⟨false, .won _ rfl rfl⟩
  have h6 := h5.tail ⟨true, .lost _ rfl (by decide)⟩
  have h7 := h6.tail ⟨false, .act _ true false 1 rfl rfl⟩
  have h8 := h7.tail ⟨false, .finish _ false rfl rfl⟩
  have hrun := h8.tail ⟨true, .skip _ rfl (by decide)⟩
  obtain ⟨_, _, _, hpast⟩ := once_runs_once addOne (fun _ => true) 0 _ hrun
  exact ⟨_, hrun, by decide, by decide, (hpast true (by decide)).2⟩

/-- From every state of every run every thread can get past the block, if its code ends. -/
theorem once_never_stuck (next : κ → σ → Option (κ × σ)) (code : τ → κ) (m0 : σ) (s : OnceSys τ κ σ)
    (hhalt : ∀ t, Halts next (code t) m0) (hrun : OnceRun next code (.start m0) s) (t : τ) :
    ∃ s', OnceRun next code s s' ∧ s.past t < s'.past t := by
  obtain ⟨g, hg, h⟩ := abstracts_run hrun
  obtain ⟨hempty, _⟩ := serial_of_run hg
  rw [h.mem] at hempty
  rcases h.phase with ⟨hstate, hin, hlog, _⟩ | ⟨u, k, _, hin, hlog, _⟩ | ⟨_, hstate, hin, _⟩
  · have hnone : ∀ u k, s.pc u ≠ .block k := by
      intro u k hk
      rw [h.inside, hin] at hk
      cases hk
    obtain ⟨s1, hrun1, hmem, hpast, hpc⟩ := enter_run next code hstate (hnone t)
    have hm0 := (hempty hlog).1 hin
    have hhalt1 : Halts next (code t) s1.mem := by
      rw [hmem, hm0]
      exact hhalt t
    obtain ⟨s', hrun', _, _, hpast'⟩ := finish_run code hhalt1 rfl hpc
    refine ⟨s', hrun1.trans hrun', ?_⟩
    rw [hpast', Function.update_self, hpast]
    exact Nat.lt_succ_self _
  · have hpc := (h.inside u k).2 hin
    exact finish_past_run ((hhalt u).of_executes ((hempty hlog).2 u (code u) k hin)) hpc (eq_of_inside h hpc) t
  · refine past_run next code hstate fun k hk => ?_
    rw [h.inside, hin] at hk
    cases hk

/-- With one thread in the block and another that waits for it, the other gets past. -/
theorem once_never_stuck_two :
    ∃ s s' : OnceSys Bool Bool Nat, OnceRun addOne (fun _ => true) (.start 0) s ∧ s.entered = [false] ∧ s.past true = 0 ∧
      OnceRun addOne (fun _ => true) s s' ∧ 0 < s'.past true := by
  have h1 : OnceRun addOne (fun _ => true) (OnceSys.start 0) _ := run_step (.arrive (t := false) _ rfl)
  have h2 := h1.tail ⟨false, .zero _ rfl rfl⟩
  have h3 := h2.tail ⟨false, .won _ rfl rfl⟩
  have h4 := h3.tail ⟨true, .arrive _ rfl⟩
  have hrun := h4.tail ⟨true, .yield _ rfl (by decide)⟩
  obtain ⟨s', hrest, hlt⟩ := once_never_stuck addOne (fun _ => true) 0 _ (fun _ => addOne_halts 0) hrun true
  exact ⟨_, s', hrun, rfl, rfl, hrest, hlt⟩

end VerifyFiredancer
